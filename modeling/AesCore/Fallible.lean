/-!
# Computations that may fail

A computation in `Option` has failed when it is `none`, for example because it would have
read outside an array. `Returns` says that it completes, and what holds of its result; the
rules below derive this for a sequence of computations and for a loop, one statement at a
time. The loop counts its passes from zero and hands the number to its body.
-/

namespace Fallible

universe u v
variable {α : Type u} {β : Type v}

/-- A computation completes, with a result that satisfies a predicate. A computation that
fails, for instance by an access outside an array, returns nothing and satisfies no
predicate. -/
def Returns (computation : Option α) (post : α → Prop) : Prop :=
  ∃ result, computation = some result ∧ post result

/-- The state after the first `n` passes of a loop whose body knows the number of its pass.
The loop fails where one of the passes does. -/
def passes (body : Nat → α → Option α) (start : α) : Nat → Option α
  | 0 => some start
  | n + 1 => (passes body start n).bind (body n)

/-- A value that is returned satisfies whatever holds of it. This rule ends a chain of
computations. -/
theorem returns_some {value : α} {post : α → Prop} (holds : post value) :
    Returns (some value) post :=
  ⟨value, rfl, holds⟩

/-- The second computation starts from what the first one guarantees. So each function is
proved once, and its callers cite what it returns. -/
theorem Returns.bind {first : Option α} {second : α → Option β} {mid : α → Prop}
    {post : β → Prop} (before : Returns first mid)
    (after : ∀ value, mid value → Returns (second value) post) :
    Returns (first.bind second) post := by
  obtain ⟨value, same, holds⟩ := before
  subst same
  exact after value holds

/-- A guarantee may be weakened. A function says all it knows of its result, and each caller
keeps what it needs. -/
theorem Returns.mono {computation : Option α} {strong weak : α → Prop}
    (returns : Returns computation strong) (weaker : ∀ value, strong value → weak value) :
    Returns computation weak := by
  obtain ⟨value, same, holds⟩ := returns
  exact ⟨value, same, weaker value holds⟩

/-- An invariant that every pass carries on holds after all of them, and none of them fails.
The induction is over the number of passes. -/
theorem returns_passes (invariant : Nat → α → Prop) {body : Nat → α → Option α} {start : α}
    {n : Nat} (initial : invariant 0 start)
    (step : ∀ i, i < n → ∀ value, invariant i value → Returns (body i value) (invariant (i + 1))) :
    Returns (passes body start n) (invariant n) := by
  induction n with
  | zero => exact returns_some initial
  | succ n inductionHypothesis =>
    have earlier := inductionHypothesis fun i inside => step i (Nat.lt_succ_of_lt inside)
    exact earlier.bind (step n (Nat.lt_succ_self n))

end Fallible
