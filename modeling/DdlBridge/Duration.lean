/-!
# Durations as text

A duration is written in the largest of the units `s`, `ms`, `µs`, `ns` in which it is at least one,
with the fraction cut behind its last digit that is not zero.
-/

namespace DdlBridge.Duration

/-- The decimal digits of `n`, filled up to `places` with zeros in front. -/
def padded (places n : Nat) : List Char :=
  let digits := (toString n).toList
  List.replicate (places - digits.length) '0' ++ digits

/-- `n` units of which `10 ^ places` make a whole. -/
def decimal (places n : Nat) : String :=
  let fraction := padded places (n % Nat.pow 10 places)
  let kept := (fraction.reverse.dropWhile (· == '0')).reverse
  let whole := toString (n / Nat.pow 10 places)
  if kept.isEmpty then whole else whole ++ "." ++ String.ofList kept

def text (nanos : Nat) : String :=
  if 1000000000 ≤ nanos then decimal 9 nanos ++ "s"
  else if 1000000 ≤ nanos then decimal 6 nanos ++ "ms"
  else if 1000 ≤ nanos then decimal 3 nanos ++ "µs"
  else toString nanos ++ "ns"

end DdlBridge.Duration
