import DdlBridge.Error
import DdlBridge.Schema.Basic

/-!
# Putting fragments in order

Fragments arrive in any order and are appended in the order of their indices. Exactly the indices
from 0 up to the expected number must arrive, each once.
-/

namespace DdlBridge

structure Aggregator where
  schema : Schema := {}
  /-- The index of the next fragment to append. -/
  next : Nat := 0
  /-- Fragments that arrived early. -/
  pending : List (Nat × Schema) := []

namespace Aggregator

/-- Appends the fragment that is due. -/
def append (a : Aggregator) (fragment : Schema) : Aggregator :=
  { schema := a.schema.append fragment
    next := a.next + 1
    pending := a.pending.filter (·.1 != a.next) }

theorem length_pending_append_lt {a : Aggregator} {p : Nat × Schema} (fragment : Schema)
    (h : a.pending.find? (·.1 == a.next) = some p) :
    (a.append fragment).pending.length < a.pending.length :=
  List.length_filter_lt_length_iff_exists.2
    ⟨p, List.mem_of_find?_eq_some h, by simpa using List.find?_some h⟩

/-- Appends all the fragments that are due. -/
def drain (a : Aggregator) : Aggregator :=
  match h : a.pending.find? (·.1 == a.next) with
  | some (_, fragment) =>
    have := length_pending_append_lt fragment h
    (a.append fragment).drain
  | none => a
termination_by a.pending.length

/-- Takes the outcome of a batch. -/
def accept (a : Aggregator) (index : Nat) (outcome : Except Error Schema) :
    Except Error Aggregator := do
  let fragment ← outcome
  if index < a.next ∨ a.pending.any (·.1 == index) then
    throw (.internal s!"batch {index} reported twice")
  return drain { a with pending := (index, fragment) :: a.pending }

/-- The schema, once the expected number of fragments has been appended. -/
def finish (a : Aggregator) (expected : Nat) : Except Error Schema :=
  if a.next = expected ∧ a.pending.isEmpty then .ok a.schema
  else .error (.internal
    s!"merged {a.next} of {expected} batches ({a.pending.length} out of order)")

end Aggregator

end DdlBridge
