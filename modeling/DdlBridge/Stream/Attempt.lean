import DdlBridge.Grammar.Script
import DdlBridge.Stream.Batch

/-!
# Parsing a batch

A batch is parsed until an attempt does not fail temporarily or the retries are used up. Every
attempt sees the same bytes.
-/

namespace DdlBridge

/-- How one attempt to parse a batch ends. -/
inductive Attempt where
  | parsed (schema : Schema)
  | failed (e : Error)
  | crashed (text : String)

namespace Attempt

/-- The text of a batch. -/
def text (data : List UInt8) : Except Error (List Char) :=
  match Text.Utf8.decode data with
  | .ok cs => .ok cs
  | .error fault => .error (.invalidInput ("batch is not valid UTF-8: " ++ fault.message))

def ofResult : Except Error Schema → Attempt
  | .ok schema => .parsed schema
  | .error e => .failed e

/-- Attempts that are made to end in a certain way; the others take their course. -/
abbrev Faults := List (Option Attempt)

/-- Parses the bytes of a batch, unless the next fault says otherwise. Bytes that are no text use up
no fault. -/
def run (dialect : Dialect) (data : List UInt8) (faults : Faults) : Attempt × Faults :=
  match text data with
  | .error e => (.failed e, faults)
  | .ok script =>
    match faults with
    | some fault :: faults => (fault, faults)
    | none :: faults => (ofResult (parseScript dialect script), faults)
    | [] => (ofResult (parseScript dialect script), [])

end Attempt

namespace Batch

/-- The outcome of a batch, with what happened on the way. -/
structure Outcome (σ : Type) where
  notes : List Note
  result : Except Error Schema
  state : σ

/-- Makes attempts, of which `attempt` failed before. Offsets in errors are moved to the source. -/
def parse {σ : Type} (policy : RetryPolicy) (next : σ → Attempt × σ) (b : Batch) (attempt : Nat)
    (s : σ) : Outcome σ :=
  match next s with
  | (.parsed schema, s) => ⟨[], .ok schema, s⟩
  | (.crashed text, s) =>
    let e := Error.crashed b.index text
    ⟨[.observed e], .error e, s⟩
  | (.failed e, s) =>
    let e := e.relocate b.offset
    if e.isTemporary then
      match h : policy.nextDelay (attempt + 1) with
      | some delay =>
        have := RetryPolicy.le_maxRetries_of_nextDelay h
        let rest := parse policy next b (attempt + 1) s
        { rest with notes := .observed e :: .wait delay :: rest.notes }
      | none => ⟨[.observed e], .error (.retriesExhausted b.index (attempt + 1) e), s⟩
    else ⟨[.observed e], .error (e.tagged b.index), s⟩
termination_by policy.maxRetries - attempt

end Batch

end DdlBridge
