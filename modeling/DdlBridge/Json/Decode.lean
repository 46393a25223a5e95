import DdlBridge.Json.Basic

/-!
# Decoding JSON

A record is an object with named members, or an array of its fields in order whose last ones may be
missing. Unknown members are ignored, and a known one may not occur twice.
-/

namespace DdlBridge.Json

/-- The fields of a record in the order of `names`; `none` for one that is missing. -/
def fields? (names : List String) : Json → Option (List (Option Json))
  | obj members =>
    if names.all fun n => (members.filter (·.1 == n)).length ≤ 1 then
      some (names.map fun n => (members.find? (·.1 == n)).map (·.2))
    else none
  | arr items =>
    if items.length ≤ names.length then
      some (items.map some ++ List.replicate (names.length - items.length) none)
    else none
  | _ => none

def string? : Json → Option String
  | str s => some s
  | _ => none

def bool? : Json → Option Bool
  | bool b => some b
  | _ => none

def int? : Json → Option Int
  | int n => some n
  | _ => none

def list? {α : Type} (f : Json → Option α) : Json → Option (List α)
  | arr items => items.mapM f
  | _ => none

/-- `null` stands for none. -/
def option? {α : Type} (f : Json → Option α) : Json → Option (Option α)
  | null => some none
  | v => (f v).map some

/-- A field that must be present. -/
def required? {α : Type} (f : Json → Option α) (field : Option Json) : Option α := field.bind f

/-- A field that may be missing. -/
def optional? {α : Type} (default : α) (f : Json → Option α) : Option Json → Option α
  | some v => f v
  | none => some default

def uint32? (v : Json) : Option UInt32 :=
  (int? v).bind fun n => if 0 ≤ n ∧ n < UInt32.size then some (UInt32.ofNat n.toNat) else none

def int64? (v : Json) : Option Int64 :=
  (int? v).bind fun n =>
    if Int64.minValue.toInt ≤ n ∧ n ≤ Int64.maxValue.toInt then some (Int64.ofInt n) else none

/-- One of a few names, as a string or as the only member of an object whose value is `null`. -/
def choice? {α : Type} (f : String → Option α) : Json → Option α
  | str s => f s
  | obj [(s, null)] => f s
  | _ => none

end DdlBridge.Json
