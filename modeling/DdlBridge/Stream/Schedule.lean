import DdlBridge.Stream.Aggregator

/-!
# Schedules of a call

While a call runs, a batcher sends batches, workers take and parse them, and the call itself takes
what they report. Batches and reports wait in channels with room for two items for each worker.
`Schedule.Step` is one step of any of these tasks and `Schedule.Returns` the end of the call; which
task moves next is open. The call holds both channels open until it returns, so that nobody who sends
finds the other side gone.
-/

namespace DdlBridge

/-- What a call works on, whatever its schedule. -/
structure Work where
  /-- The number of batches that the batcher sends. -/
  count : Nat
  outcome : Nat → Except Error Schema
  /-- Why the batcher fails behind the last batch. -/
  failure : Option Error := none

/-- What the batcher returns. -/
def Work.ending (work : Work) : Except Error Nat :=
  match work.failure with
  | some e => .error e
  | none => .ok work.count

namespace Schedule

/-- The outcome of a batch on its way to the aggregator. -/
structure Report where
  index : Nat
  outcome : Except Error Schema

inductive Sender where
  /-- Batch `next` comes next. -/
  | sending (next : Nat)
  | exited (ending : Except Error Nat)
  | joined

inductive Worker where
  /-- It waits for a batch. -/
  | idle
  | parsing (index : Nat)
  | reporting (report : Report)
  | exited
  | joined

/-- A worker that has handed over a failure stops. -/
def Worker.following (report : Report) : Worker :=
  match report.outcome with
  | .ok _ => .idle
  | .error _ => .exited

/-- A call that has not returned. -/
structure State where
  sender : Sender := .sending 0
  queue : List Nat := []
  workers : List Worker
  reports : List Report := []
  aggregator : Aggregator := {}
  /-- The number of batches, once the batcher has been joined. -/
  expected : Option Nat := none

def init (workers : Nat) : State := { workers := .replicate workers .idle }

/-- The room in either channel. -/
def State.capacity (s : State) : Nat := s.workers.length * 2

/-- Every task has been joined and every report taken. -/
structure State.Over (s : State) : Prop where
  sender : s.sender = .joined
  workers : ∀ worker ∈ s.workers, worker = .joined
  reports : s.reports = []

/-- What a call returns when nothing is left to wait for. -/
def State.conclude (s : State) : Except Error Schema :=
  match s.expected with
  | none => .error (.internal "batcher exited without a count")
  | some count => s.aggregator.finish count

/-- One step of the batcher, of a worker or of the call. -/
inductive Step (work : Work) (s : State) : State → Prop where
  | send (i : Nat) (hsender : s.sender = .sending i) (hmore : i < work.count)
      (hroom : s.queue.length < s.capacity) :
      Step work s { s with sender := .sending (i + 1), queue := s.queue ++ [i] }
  | finish (hsender : s.sender = .sending work.count) :
      Step work s { s with sender := .exited work.ending }
  | take (front back : List Worker) (i : Nat) (queue : List Nat)
      (hworkers : s.workers = front ++ .idle :: back) (hqueue : s.queue = i :: queue) :
      Step work s { s with workers := front ++ .parsing i :: back, queue }
  | parse (front back : List Worker) (i : Nat)
      (hworkers : s.workers = front ++ .parsing i :: back) :
      Step work s { s with workers := front ++ .reporting ⟨i, work.outcome i⟩ :: back }
  | report (front back : List Worker) (r : Report)
      (hworkers : s.workers = front ++ .reporting r :: back) (hroom : s.reports.length < s.capacity) :
      Step work s
        { s with workers := front ++ Worker.following r :: back, reports := s.reports ++ [r] }
  /-- A worker stops when the batcher is gone and the queue is empty. -/
  | retire (front back : List Worker) (hworkers : s.workers = front ++ .idle :: back)
      (hsender : ∀ i, s.sender ≠ .sending i) (hqueue : s.queue = []) :
      Step work s { s with workers := front ++ .exited :: back }
  /-- The call takes a report, not necessarily the oldest. -/
  | receive (front back : List Report) (r : Report) (aggregator : Aggregator)
      (hreports : s.reports = front ++ r :: back)
      (haccept : s.aggregator.accept r.index r.outcome = .ok aggregator) :
      Step work s { s with reports := front ++ back, aggregator }
  | joinBatcher (count : Nat) (hsender : s.sender = .exited (.ok count)) :
      Step work s { s with sender := .joined, expected := some count }
  | joinWorker (front back : List Worker) (hworkers : s.workers = front ++ .exited :: back) :
      Step work s { s with workers := front ++ .joined :: back }

/-- What the call may return now. -/
inductive Returns (s : State) : Except Error Schema → Prop where
  | receive (r : Report) (e : Error) (hmem : r ∈ s.reports)
      (haccept : s.aggregator.accept r.index r.outcome = .error e) : Returns s (.error e)
  | joinBatcher (e : Error) (hsender : s.sender = .exited (.error e)) : Returns s (.error e)
  | finished (hover : s.Over) : Returns s s.conclude

end Schedule

end DdlBridge
