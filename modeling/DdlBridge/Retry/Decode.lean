import DdlBridge.Decimal.Scaling
import DdlBridge.Json.Decode
import DdlBridge.Retry.Policy
import DdlBridge.Toml.Basic

/-!
# Retry policies in data files

A backoff is a record whose first field `kind` says which other fields it has.
-/

namespace DdlBridge

namespace Backoff

def uint64? (n : Int) : Option UInt64 :=
  if 0 ≤ n ∧ n < UInt64.size then some (UInt64.ofNat n.toNat) else none

def jsonUInt64? (v : Json) : Option UInt64 := v.int?.bind uint64?

def jsonFloat? : Json → Option Float
  | .int n => Decimal.readScaled? (toString n).toList
  | .real text => Decimal.readScaled? text.toList
  | _ => none

/-- The kinds of a backoff in the order of their numbers. -/
def kinds : List String := ["none", "fixed", "exponential"]

/-- A kind by its name or its number. -/
def jsonKind? : Json → Option String
  | .str kind => some kind
  | .int n => if 0 ≤ n then kinds[n.toNat]? else none
  | _ => none

/-- The backoff `kind` whose other fields are in `rest`, all of which must be there. -/
def ofJsonFields? (kind : String) (rest : Json) : Option Backoff := do
  match kind with
  | "none" =>
    match rest with
    | .arr (_ :: _) => failure
    | _ => return .immediate
  | "fixed" =>
    match ← rest.fields? ["delay_ms"] with
    | [some delay] => return .fixed (← jsonUInt64? delay)
    | _ => failure
  | "exponential" =>
    match ← rest.fields? ["initial_ms", "max_ms", "multiplier"] with
    | [some initial, some limit, some multiplier] =>
      return .exponential (← jsonUInt64? initial) (← jsonUInt64? limit) (← jsonFloat? multiplier)
    | _ => failure
  | _ => failure

def ofJson? : Json → Option Backoff
  | .arr (kind :: rest) => (jsonKind? kind).bind (ofJsonFields? · (.arr rest))
  | .obj members => do
    match ← (Json.obj members).fields? ["kind"] with
    | [some kind] => ofJsonFields? (← jsonKind? kind) (.obj (members.filter (·.1 != "kind")))
    | _ => failure
  | _ => none

end Backoff

namespace Toml

/-- The fields of a record in the order of `names`. An array gives them by position, and a moment is
a record that has none of them. -/
def fields? (names : List String) : Toml → Option (List (Option Toml))
  | table entries => some (names.map fun n => (entries.find? (·.1 == n)).map (·.2))
  | arr items => some ((List.range names.length).map (items[·]?))
  | moment _ => some (names.map fun _ => none)
  | _ => none

/-- The fields of a record that has no place for more items. -/
def closedFields? (names : List String) : Toml → Option (List (Option Toml))
  | arr items => if items.length ≤ names.length then (arr items).fields? names else none
  | v => v.fields? names

/-- A number from 0 up to but excluding `bound`. -/
def natural? (bound : Nat) : Toml → Option Nat
  | int n => if 0 ≤ n ∧ n < bound then some n.toNat else none
  | _ => none

def optional? {α : Type} (default : α) (f : Toml → Option α) : Option Toml → Option α
  | some v => f v
  | none => some default

def asFloat? : Toml → Option Float
  | int n => some (Decimal.read (toString n).toList)
  | float x => some x
  | _ => none

end Toml

namespace Backoff

def tomlUInt64? (v : Toml) : Option UInt64 := (v.natural? UInt64.size).map UInt64.ofNat

def ofTomlFields? (kind : String) (rest : Toml) : Option Backoff := do
  match kind with
  | "none" =>
    let _ ← rest.closedFields? []
    return .immediate
  | "fixed" =>
    match ← rest.closedFields? ["delay_ms"] with
    | [some delay] => return .fixed (← tomlUInt64? delay)
    | _ => failure
  | "exponential" =>
    match ← rest.closedFields? ["initial_ms", "max_ms", "multiplier"] with
    | [some initial, some limit, some multiplier] =>
      return .exponential (← tomlUInt64? initial) (← tomlUInt64? limit) (← multiplier.asFloat?)
    | _ => failure
  | _ => failure

def ofToml? : Toml → Option Backoff
  | .arr (.str kind :: rest) => ofTomlFields? kind (.arr rest)
  | .table entries =>
    match entries.find? (·.1 == "kind") with
    | some (_, .str kind) => ofTomlFields? kind (.table entries)
    | _ => none
  | _ => none

end Backoff

def RetryPolicy.ofToml? (v : Toml) : Option RetryPolicy := do
  match ← v.fields? ["max_retries", "backoff"] with
  | [maxRetries, backoff] =>
    return {
      maxRetries := ← Toml.optional? 0 (Toml.natural? UInt32.size) maxRetries
      backoff := ← Toml.optional? .immediate Backoff.ofToml? backoff }
  | _ => failure

end DdlBridge
