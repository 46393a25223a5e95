import DdlBridge.Retry.Policy
import DdlBridge.Statement.Scanner

/-!
# Batches

A source is cut into batches of whole statements. A batch ends at the first statement end at or
behind the least size, so the cuts depend on the bytes alone and not on how they are delivered.
-/

namespace DdlBridge

structure Batch where
  /-- The position among the batches of the source, from 0. -/
  index : Nat
  /-- Where the batch starts in the source. -/
  offset : Nat
  data : List UInt8
  deriving DecidableEq, Repr

/-- What a source does when it is read. No bytes are the end of input. -/
inductive Read where
  | data (bytes : List UInt8)
  | failure (kind : IoKind) (text : String)
  /-- The read never returns. -/
  | pending
  deriving DecidableEq, Repr

/-- What happens beside the result: errors that an observer sees, and waiting times. -/
inductive Note where
  | observed (e : Error)
  | wait (ms : UInt64)
  deriving DecidableEq, Repr

structure Batcher where
  scanner : Scanner
  batchSize : Nat
  /-- The bytes since the last cut, last first. -/
  current : List UInt8 := []
  /-- The index of the next batch. -/
  index : Nat := 0
  /-- Where the current batch starts. -/
  start : Nat := 0
  /-- Bytes read. -/
  offset : Nat := 0
  /-- A statement with content ended in the current batch. -/
  complete : Bool := false

namespace Batcher

/-- A batcher at the start of a source; no batch is empty. -/
def init (rules : LexicalRules) (batchSize : Nat) : Batcher :=
  { scanner := { rules }, batchSize := max batchSize 1 }

def batch (b : Batcher) : Batch := ⟨b.index, b.start, b.current.reverse⟩

/-- Starts the next batch; the current one counts only if it is complete. -/
def cut (b : Batcher) : Batcher :=
  { b with
    current := [], index := if b.complete then b.index + 1 else b.index, start := b.offset,
    complete := false }

/-- Notes whether the statement that has just ended had content. -/
def noted (b : Batcher) : Batcher := { b with complete := b.complete || b.scanner.lastContent }

/-- A statement has ended, and with it the batch if that is long enough. -/
def endStatement (b : Batcher) : Batcher × Option Batch :=
  let b := b.noted
  if b.offset - b.start < b.batchSize then (b, none)
  else (b.cut, if b.complete then some b.batch else none)

/-- Reads one byte, which may end a batch. -/
def feed (b : Batcher) (byte : UInt8) : Batcher × Option Batch :=
  let (scanner, ended) := b.scanner.feed byte
  let b := { b with scanner, current := byte :: b.current, offset := b.offset + 1 }
  if ended then b.endStatement else (b, none)

/-- Reads one byte behind the batches `r.2`, which come last first. -/
def feedOn (r : Batcher × List Batch) (byte : UInt8) : Batcher × List Batch :=
  let (b, batch?) := r.1.feed byte
  (b, batch?.toList ++ r.2)

/-- Reads bytes; the batches come last first, in front of `found`. -/
def feedAll (b : Batcher) (found : List Batch) (bytes : List UInt8) : Batcher × List Batch :=
  bytes.foldl feedOn (b, found)

/-- Ends the source: the last batch, if what is left is one. -/
def finish (b : Batcher) : Except Error (Option Batch) := do
  let scanner ← b.scanner.finish
  return if b.complete || scanner.content then some b.batch else none

/-- What a batcher does, in order. -/
inductive Step where
  | batch (b : Batch)
  | note (n : Note)
  deriving DecidableEq, Repr

/-- How a batcher ends. -/
inductive End where
  /-- All `count` batches were cut. -/
  | done (count : Nat)
  | failed (e : Error)
  /-- It waits for a read that never returns. -/
  | stalled
  deriving DecidableEq, Repr

/-- The end of input. -/
def close (b : Batcher) : List Step × End :=
  match b.finish with
  | .ok (some batch) => ([.batch batch], .done (b.index + 1))
  | .ok none => ([], .done b.index)
  | .error e => ([.note (.observed e)], .failed (e.tagged b.index))

/-- Reads a source. `attempt` counts the failures of the current read; temporary ones are retried
without touching the bytes read so far. -/
def run (policy : RetryPolicy) (b : Batcher) (attempt : Nat) : List Read → List Step × End
  | [] | .data [] :: _ => b.close
  | .data bytes :: reads =>
    let (b, found) := b.feedAll [] bytes
    let (steps, last) := run policy b 0 reads
    (found.reverse.map .batch ++ steps, last)
  | .failure kind text :: reads =>
    let e := Error.io kind text
    if e.isTemporary then
      match policy.nextDelay (attempt + 1) with
      | some delay =>
        let (steps, last) := run policy b (attempt + 1) reads
        (.note (.observed e) :: .note (.wait delay) :: steps, last)
      | none => ([.note (.observed e)], .failed (.retriesExhausted b.index (attempt + 1) e))
    else ([.note (.observed e)], .failed (e.tagged b.index))
  | .pending :: _ => ([], .stalled)

/-- A run whose batches nobody takes: it ends without an error where it would hand over the
first. -/
def untaken : List Step × End → List Step × End
  | (.batch b :: _, _) => ([], .done b.index)
  | (.note n :: steps, last) =>
    let (steps, last) := untaken (steps, last)
    (.note n :: steps, last)
  | ([], last) => ([], last)

end Batcher

end DdlBridge
