import AesCore.CipherRun

/-!
# The ports for observation

The `aes_top` of the test bench brings internal signals of the encryption core out to
the interface: the counter, the registered text, the words of the schedule, the state
bytes and the wires to their next values. The test writes them to its log in every
cycle.

From one to ten clocks after a load they follow the standard: the words are the round
keys, and the state bytes are the states at the start of the rounds. In the clock right
after the load the state bytes still hold what they held before. The wires to the next
values show the ends of the first nine rounds. In the tenth they still mix the columns,
which the last round of the standard does not; its result goes to `text_out` by wires of
its own. None of this depends on the reset, which stops the counter but not the data path.
-/

namespace AesCore.DebugPorts

open CipherTop Fips197 StateRegisters

/-- The outputs of the interface: those of the core, and the internal signals that are
brought out for the log of the test. -/
structure Outputs where
  textOut : Block
  done : Bool
  textInR : Block
  w : Words
  sa : Sa
  saNext : Sa
  ldR : Bool
  dcnt : BitVec 4
  deriving DecidableEq, Inhabited

/-- The state after `j` rounds that mix their columns. For `j` up to nine this is the state
of the standard at the start of round `j + 1`. For ten it is no state of the standard,
whose last round does not mix, but it is what the wires of the core compute. -/
def roundState (key text : Block) (j : Nat) : State :=
  layers.forward (roundKey key) (layers.add (roundKey key 0) (toState text)) j

/-- What the ports show `j` clocks after a load, for `j` up to ten: the registered text and
round key `j`. For `j` from one on, when the state bytes have left their old contents, they
are the state at the start of round `j`, and the wires to their next values carry that
round with its columns mixed. This is the end of round `j` below ten; at ten it is a state
that the standard does not prescribe, and the last round of the standard makes the ciphertext
of the words and the bytes. -/
structure Tracks (key text : Block) (j : Nat) (o : Outputs) : Prop where
  ldR : o.ldR = decide (j = 0)
  textInR : o.textInR = text
  w : o.w.word = roundKey key j
  sa : 0 < j → o.sa.state = roundState key text (j - 1)
  saNext : 0 < j → o.saNext.state = roundState key text j
  last : j = 10 → cipher key text = ofState (layers.add o.w.word (layers.sub o.sa.state))

variable (start : Registers) (inputs : Nat → Inputs) {m j : Nat}

end AesCore.DebugPorts
