import DdlBridge.Decimal.Reading

/-!
# Reading decimals by scaling

The first digits of a decimal, as many as 64 bits hold, are scaled by a power of ten in
floating-point arithmetic. A decimal of up to 15 digits with a small exponent gives the nearest
number, any other one perhaps a neighbour of it.
-/

namespace DdlBridge.Decimal

/-- The digits `cs` behind those of `n` as long as they stay below `2 ^ 64`, and how many are left
over. -/
def withDigits (n : Nat) : List Char → Nat × Nat
  | [] => (n, 0)
  | c :: cs =>
    let m := 10 * n + (c.toNat - 48)
    if UInt64.size ≤ m then (n, cs.length + 1) else withDigits m cs

theorem withDigits_lt {n : Nat} (h : n < UInt64.size) (cs : List Char) :
    (withDigits n cs).1 < UInt64.size := by
  induction cs generalizing n with
  | nil => simpa [withDigits] using h
  | cons c cs ih =>
    rw [withDigits]
    split
    · exact h
    · exact ih (by omega)

def tenPower (n : Nat) : Float := Float.ofScientific 1 false n

/-- The largest power of ten that is a floating-point number. -/
def maxTenPower : Nat := 308

/-- `x / 10 ^ n`, divided by the largest power as long as `n` exceeds it. -/
def scaleDown (x : Float) (n : Nat) : Float :=
  if n ≤ maxTenPower then x / tenPower n
  else if x == 0.0 then x
  else scaleDown (x / tenPower maxTenPower) (n - maxTenPower)
termination_by n
decreasing_by simp_all [maxTenPower]; omega

/-- `n · 10 ^ exponent`; none if it is too large. -/
def scaled? (n : Nat) (exponent : Int) : Option Float :=
  let x := (UInt64.ofNat n).toFloat
  if exponent < 0 then some (scaleDown x (-exponent).toNat)
  else if n = 0 then some 0.0
  else if maxTenPower < exponent then none
  else
    let y := x * tenPower exponent.toNat
    if y.isInf then none else some y

/-- A decimal by scaling; none if it is too large. -/
def readScaled? (text : List Char) : Option Float :=
  let p := Parts.ofText text
  let (n, skipped) := withDigits 0 p.whole
  let (n, dropped) := withDigits n p.fraction
  let places := p.fraction.length - dropped
  (scaled? n (p.exponent + skipped - places)).map p.signed

end DdlBridge.Decimal
