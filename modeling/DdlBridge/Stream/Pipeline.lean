import DdlBridge.Config
import DdlBridge.Stream.Aggregator
import DdlBridge.Stream.Attempt

/-!
# Parsing a stream

A call cuts its source into batches, parses them and puts the fragments in order, under one
deadline. The first failure ends it. Time passes only while a call waits: between attempts, or for a
read that never returns.
-/

namespace DdlBridge

/-- What a call has shown so far. -/
structure Log where
  /-- Milliseconds waited. -/
  clock : Nat := 0
  /-- The errors observed, last first. -/
  observed : List Error := []
  /-- The deadline has passed, and nothing more happens. -/
  expired : Bool := false

def Log.note (deadline : Option Nat) (l : Log) (n : Note) : Log :=
  if l.expired then l
  else match n with
    | .observed e => { l with observed := e :: l.observed }
    | .wait ms =>
      let clock := l.clock + ms.toNat
      { l with clock, expired := deadline.any (· ≤ clock) }

/-- A call in progress. -/
structure Progress where
  log : Log := {}
  aggregator : Aggregator := {}
  faults : Attempt.Faults
  failure : Option Error := none

structure StreamParser where
  dialect : Dialect
  config : StreamConfig
  /-- Whether anyone observes errors. -/
  observing : Bool := true

/-- The outcome of a call. -/
structure StreamParser.Call where
  result : Except Error Schema
  observed : List Error
  faults : Attempt.Faults

namespace StreamParser

def ofConfig (dialect : Dialect) (parallelism : Nat) (config : StreamConfig) : StreamParser :=
  { dialect, config := config.normalized parallelism }

/-- Parses one batch and hands its fragment to the aggregator. -/
def takeBatch (p : StreamParser) (deadline : Option Nat) (s : Progress) (b : Batch) : Progress :=
  let out := b.parse p.config.retryPolicy (Attempt.run p.dialect b.data) 0 s.faults
  let s := { s with log := out.notes.foldl (Log.note deadline) s.log, faults := out.state }
  if s.log.expired then s
  else match s.aggregator.accept b.index out.result with
    | .ok aggregator => { s with aggregator }
    | .error e => { s with failure := some e }

/-- One step of the batcher; none counts once the call has failed or its deadline has passed. -/
def step (p : StreamParser) (deadline : Option Nat) (s : Progress) (step : Batcher.Step) :
    Progress :=
  if s.failure.isSome ∨ s.log.expired then s
  else match step with
    | .batch b => p.takeBatch deadline s b
    | .note n => { s with log := s.log.note deadline n }

def conclude (deadline : Option Nat) (s : Progress) (last : Batcher.End) : Except Error Schema :=
  let late : Except Error Schema := .error (.timeout (deadline.getD 0 * 1000000))
  if s.log.expired then late
  else match s.failure with
    | some e => .error e
    | none =>
      match last with
      | .done count => s.aggregator.finish count
      | .failed e => .error e
      | .stalled => late

/-- The earlier of two deadlines. -/
def earlier : Option Nat → Option Nat → Option Nat
  | some a, some b => some (min a b)
  | a, b => a.or b

/-- Parses what a source yields. -/
def call (p : StreamParser) (source : Option (List Read)) (deadline : Option Nat)
    (faults : Attempt.Faults) : Call :=
  let visible (errors : List Error) := if p.observing then errors else []
  match source with
  | none =>
    let e := Error.invalidInput "no input source"
    ⟨.error e, visible [e], faults⟩
  | some reads =>
    let deadline := earlier p.config.timeout? deadline
    let batcher := Batcher.init p.dialect.rules p.config.batchSize
    let (steps, last) := batcher.run p.config.retryPolicy 0 reads
    let log : Log := { expired := deadline == some 0 }
    let s := steps.foldl (p.step deadline) { log, faults }
    let result := conclude deadline s last
    let timeouts :=
      match result with
      | .error (.timeout nanos) => [Error.timeout nanos]
      | _ => []
    ⟨result, visible (s.log.observed.reverse ++ timeouts), s.faults⟩

end StreamParser

end DdlBridge
