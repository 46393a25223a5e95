/-!
# Reading decimals

The floating-point number nearest to a decimal.
-/

namespace DdlBridge.Decimal

def digitsValue (cs : List Char) : Nat := cs.foldl (fun n c => 10 * n + (c.toNat - 48)) 0

/-- A sign and digits. -/
def signedValue (cs : List Char) : Int :=
  match cs with
  | '-' :: digits => -(digitsValue digits : Int)
  | '+' :: digits => digitsValue digits
  | digits => digitsValue digits

/-- What a decimal is written with. -/
structure Parts where
  negative : Bool
  whole : List Char
  fraction : List Char
  exponent : Int
  deriving DecidableEq, Repr

/-- The parts of a decimal: sign, digits, and perhaps a fraction and an exponent. The form is taken
for granted. -/
def Parts.ofText (text : List Char) : Parts :=
  let negative := text.head? == some '-'
  let body := if negative ∨ text.head? = some '+' then text.tail else text
  let isMark (c : Char) : Bool := c == 'e' || c == 'E'
  let (number, power) := (body.takeWhile (! isMark ·), (body.dropWhile (! isMark ·)).drop 1)
  { negative
    whole := number.takeWhile (· != '.')
    fraction := (number.dropWhile (· != '.')).drop 1
    exponent := signedValue power }

/-- The number with the sign of the decimal. -/
def Parts.signed (p : Parts) (x : Float) : Float := if p.negative then -x else x

/-- `mantissa · 10 ^ exponent`, where a magnitude far out of range is settled without the power. -/
def nearest (mantissa : Nat) (exponent : Int) : Float :=
  let size := ((toString mantissa).length : Int) + exponent
  if mantissa = 0 ∨ size < -400 then 0.0
  else if 400 < size then 1.0 / 0.0
  else if 0 ≤ exponent then Float.ofScientific mantissa false exponent.toNat
  else Float.ofScientific mantissa true (-exponent).toNat

def read (text : List Char) : Float :=
  let p := Parts.ofText text
  p.signed (nearest (digitsValue (p.whole ++ p.fraction)) (p.exponent - p.fraction.length))

end DdlBridge.Decimal
