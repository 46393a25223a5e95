/-!
# Retrying

How often, and after which delay, a temporary failure is tried again. Delays are in milliseconds.
-/

namespace DdlBridge

inductive Backoff where
  /-- Try again at once. -/
  | immediate
  | fixed (delay : UInt64)
  /-- The delay starts at `initial`, is multiplied before every further attempt, and never exceeds
  `limit`. -/
  | exponential (initial limit : UInt64) (multiplier : Float)

namespace Backoff

/-- The larger number; the other one if one is no number. -/
def floatMax (x y : Float) : Float :=
  if x.isNaN then y else if y.isNaN then x else if x < y then y else x

/-- The smaller number; the other one if one is no number. -/
def floatMin (x y : Float) : Float :=
  if x.isNaN then y else if y.isNaN then x else if y < x then y else x

/-- `product · base ^ n` by repeated squaring. -/
def power (product base : Float) (n : Nat) : Float :=
  let product := if n % 2 = 1 then product * base else product
  if n / 2 = 0 then product else power product (base * base) (n / 2)
termination_by n

/-- The delay before the attempt with this number; the first retry has number 1. -/
def delay (b : Backoff) (attempt : Nat) : UInt64 :=
  match b with
  | immediate => 0
  | fixed delay => delay
  | exponential initial limit multiplier =>
    let steps := min (attempt - 1) Int32.maxValue.toInt.toNat
    let grown := initial.toFloat * power 1.0 (floatMax multiplier 1.0) steps
    (floatMin grown limit.toFloat).toUInt64

end Backoff

structure RetryPolicy where
  maxRetries : Nat := 0
  backoff : Backoff := .immediate

namespace RetryPolicy

/-- The delay before a retry; none once the budget is spent. -/
def nextDelay (p : RetryPolicy) (attempt : Nat) : Option UInt64 :=
  if attempt = 0 ∨ p.maxRetries < attempt then none else some (p.backoff.delay attempt)

theorem nextDelay_eq_none_iff {p : RetryPolicy} {attempt : Nat} :
    p.nextDelay attempt = none ↔ attempt = 0 ∨ p.maxRetries < attempt := by
  unfold nextDelay
  split <;> simp_all

theorem le_maxRetries_of_nextDelay {p : RetryPolicy} {attempt : Nat} {delay : UInt64}
    (h : p.nextDelay attempt = some delay) : attempt ≤ p.maxRetries := by
  unfold nextDelay at h
  split at h
  · simp at h
  · omega

end RetryPolicy

end DdlBridge
