/-!
# Shortest decimals

The decimal with the fewest digits among those that round to a given binary number, and of these the
nearest to it, the larger one of two at the same distance. All comparisons are of whole numbers.
-/

namespace DdlBridge.Decimal

/-- A positive binary number `mantissa · 2 ^ exponent` as it is spaced among its neighbours. -/
structure Binary where
  mantissa : Nat
  exponent : Int
  /-- The neighbour below is only half as far away as the one above. -/
  narrow : Bool
  deriving DecidableEq, Repr

/-- The positive decimal `digits · 10 ^ exponent`. -/
structure Positional where
  digits : Nat
  exponent : Int
  deriving DecidableEq, Repr

/-- The magnitude of a floating-point number from its bits; the number is finite. -/
def Binary.ofBits (bits : Nat) : Binary :=
  let field : Nat := bits / Nat.pow 2 52 % Nat.pow 2 11
  let fraction := bits % Nat.pow 2 52
  if field = 0 then ⟨fraction, -1074, false⟩
  else ⟨Nat.pow 2 52 + fraction, (field : Int) - 1075, fraction == 0 && 1 < field⟩

/-- The numerator that `base ^ e` contributes. -/
def above (base : Nat) (e : Int) : Nat := Nat.pow base e.toNat

/-- The denominator that `base ^ e` contributes. -/
def below (base : Nat) (e : Int) : Nat := Nat.pow base (-e).toNat

/-- How `d · 10 ^ k` compares with `n · 2 ^ e`. -/
def compareScaled (d : Nat) (k : Int) (n : Nat) (e : Int) : Ordering :=
  compare (d * above 10 k * below 2 e) (n * above 2 e * below 10 k)

/-- Whether a decimal rounds to `b`: it lies between the midpoints to the neighbours, which count if
the mantissa is even. -/
def Binary.rounds (b : Binary) (p : Positional) : Bool :=
  let step := if b.narrow then 1 else 2
  let low := compareScaled p.digits p.exponent (4 * b.mantissa - step) (b.exponent - 2)
  let high := compareScaled p.digits p.exponent (4 * b.mantissa + 2) (b.exponent - 2)
  let even := b.mantissa % 2 == 0
  (low == .gt || (even && low == .eq)) && (high == .lt || (even && high == .eq))

/-- The number of steps from `n` up to `d` in powers of ten. -/
def tenfolds (d : Nat) : Nat → Nat → Nat
  | 0, _ => 0
  | fuel + 1, n => if d ≤ n then 0 else 1 + tenfolds d fuel (10 * n)

/-- The exponent of the first decimal digit of `b`. -/
def Binary.leading (b : Binary) : Int :=
  let num := b.mantissa * above 2 b.exponent
  let den := below 2 b.exponent
  if den ≤ num then ((toString (num / den)).length : Int) - 1 else -(tenfolds den 400 num : Int)

/-- The neighbours of `b` among the decimals with `n` digits. -/
def Binary.neighbours (b : Binary) (n : Nat) : Positional × Positional :=
  let k := b.leading + 1 - n
  let d := (b.mantissa * above 2 b.exponent * below 10 k) / (below 2 b.exponent * above 10 k)
  (⟨d, k⟩, ⟨d + 1, k⟩)

/-- The nearer one of the neighbours of `b` that round to it, and halfway between them the larger
one. -/
def Binary.fitting? (b : Binary) (n : Nat) : Option Positional :=
  let (p, p') := b.neighbours n
  match b.rounds p, b.rounds p' with
  | true, true =>
    if compareScaled (2 * p.digits + 1) p.exponent (2 * b.mantissa) b.exponent == .gt then some p
    else some p'
  | true, false => some p
  | false, true => some p'
  | false, false => none

def Binary.shortest (b : Binary) : Positional :=
  ((List.range 17).findSome? fun n => b.fitting? (n + 1)).getD (b.neighbours 17).1

/-- The digits without zeros at their end, and the exponent of the first. -/
def Positional.normal (p : Positional) : List Char × Int :=
  let digits := (toString p.digits).toList
  ((digits.reverse.dropWhile (· == '0')).reverse, p.exponent + digits.length - 1)

/-- Written out from `10 ^ -4` up to but excluding `10 ^ 16`, with at least one digit on each side
of the point; otherwise with an exponent. -/
def Positional.text (p : Positional) : String :=
  let (digits, leading) := p.normal
  if leading < -4 ∨ 16 ≤ leading then
    let rest := digits.drop 1
    String.ofList (digits.take 1 ++ (if rest.isEmpty then [] else '.' :: rest)) ++ s!"e{leading}"
  else if leading < 0 then
    "0." ++ String.ofList (List.replicate (-leading - 1).toNat '0' ++ digits)
  else
    let places := leading.toNat + 1
    let whole := digits.take places ++ List.replicate (places - digits.length) '0'
    let fraction := digits.drop places
    String.ofList (whole ++ '.' :: (if fraction.isEmpty then ['0'] else fraction))

def floatText (x : Float) : String :=
  if x.isNaN then "NaN"
  else
    let bits := x.toBits.toNat
    let sign := if Nat.pow 2 63 ≤ bits then "-" else ""
    if x.isInf then sign ++ "inf"
    else
      let b := Binary.ofBits bits
      sign ++ if b.mantissa = 0 then "0.0" else b.shortest.text

end DdlBridge.Decimal
