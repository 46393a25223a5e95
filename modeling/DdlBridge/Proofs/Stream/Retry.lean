import DdlBridge.Stream.Attempt
import Mathlib.Data.Nat.Find
import Mathlib.Logic.Function.Iterate

/-!
# The retry budget

Parsing a batch and reading the source retry in loops of their own. Both are one loop,
`RetryPolicy.retry` (`parse_eq_retry`, `run_eq_retry`), and that loop keeps the law of the budget
(`RetryPolicy.lawful_retry`): the first attempt that does not fail temporarily settles the matter,
unless the retries are used up before.
-/

namespace DdlBridge

/-- What trying an attempt, again if need be, comes to. -/
structure Retried (α σ : Type) where
  notes : List Note
  result : Except Error α
  state : σ

/-- The error that a note shows to an observer. -/
def Note.error? : Note → Option Error
  | .observed e => some e
  | .wait _ => none

section

variable {α σ : Type}

/-- The errors observed, in order. -/
def Retried.observed (r : Retried α σ) : List Error := r.notes.filterMap Note.error?

/-- The attempt may be made again. -/
def FailsForNow (outcome : Except Error α) : Prop :=
  ∃ e, outcome = .error e ∧ e.isTemporary = true

def failure? : Except Error α → Option Error
  | .ok _ => none
  | .error e => some e

/-- `n` attempts were made, and each that failed was observed once. -/
structure Made (outcome : Nat → Except Error α) (after : Nat → σ) (n : Nat) (r : Retried α σ) :
    Prop where
  state : r.state = after n
  observed : r.observed = (List.range n).filterMap fun i => failure? (outcome i)

/-- What retrying has to come to when attempt `i` would end in `outcome i`, and `n` attempts leave
the state `after n`. -/
structure Lawful (retries index : Nat) (outcome : Nat → Except Error α) (after : Nat → σ)
    (r : Retried α σ) : Prop where
  settled : ∀ k ≤ retries, (∀ i < k, FailsForNow (outcome i)) → ¬ FailsForNow (outcome k) →
    Made outcome after (k + 1) r ∧ r.result = (outcome k).mapError (·.tagged index)
  exhausted : (∀ i ≤ retries, FailsForNow (outcome i)) →
    Made outcome after (retries + 1) r ∧
      ∃ e, outcome retries = .error e ∧ r.result = .error (.retriesExhausted index (retries + 1) e)
  lasting : ∀ e, r.result = .error e → e.isTemporary = false

/-- The state that `n` attempts leave. -/
def stateAfter (next : σ → Except Error α × σ) (s : σ) (n : Nat) : σ := (fun s => (next s).2)^[n] s

/-- How attempt `i` ends, counted from 0. -/
def outcomeAt (next : σ → Except Error α × σ) (s : σ) (i : Nat) : Except Error α :=
  (next (stateAfter next s i)).1

theorem stateAfter_succ (next : σ → Except Error α × σ) (s : σ) (n : Nat) :
    stateAfter next s (n + 1) = stateAfter next (next s).2 n := Function.iterate_succ_apply ..

theorem outcomeAt_succ (next : σ → Except Error α × σ) (s : σ) (i : Nat) :
    outcomeAt next s (i + 1) = outcomeAt next (next s).2 i := by
  rw [outcomeAt, stateAfter_succ]
  rfl

variable {next : σ → Except Error α × σ} {s : σ}

theorem made_one {r : Retried α σ} (hstate : r.state = (next s).2)
    (hobserved : r.observed = (failure? (next s).1).toList) :
    Made (outcomeAt next s) (stateAfter next s) 1 r where
  state := hstate
  observed := by
    rw [hobserved]
    cases h : failure? (next s).1 <;> simp [outcomeAt, stateAfter, h]

/-- An attempt that fails is one more that was made, and one more that was observed. -/
theorem Made.cons {e : Error} (he : (next s).1 = .error e) {n : Nat} {delay : UInt64}
    {r : Retried α σ} (h : Made (outcomeAt next (next s).2) (stateAfter next (next s).2) n r) :
    Made (outcomeAt next s) (stateAfter next s) (n + 1)
      { r with notes := .observed e :: .wait delay :: r.notes } where
  state := by rw [stateAfter_succ, ← h.state]
  observed := by
    have hfirst : failure? (outcomeAt next s 0) = some e := congrArg failure? he
    have hrest : (fun i => failure? (outcomeAt next s i)) ∘ Nat.succ =
        fun i => failure? (outcomeAt next (next s).2 i) := by
      funext i
      exact congrArg failure? (outcomeAt_succ next s i)
    rw [List.range_succ_eq_map, List.filterMap_cons, hfirst, List.filterMap_map, hrest, ← h.observed]
    rfl

namespace RetryPolicy

/-- Makes attempts, of which `attempt` failed before. -/
def retry (policy : RetryPolicy) (index : Nat) (next : σ → Except Error α × σ) (attempt : Nat)
    (s : σ) : Retried α σ :=
  match next s with
  | (.ok a, s) => ⟨[], .ok a, s⟩
  | (.error e, s) =>
    if e.isTemporary then
      match h : policy.nextDelay (attempt + 1) with
      | some delay =>
        have := le_maxRetries_of_nextDelay h
        let rest := retry policy index next (attempt + 1) s
        { rest with notes := .observed e :: .wait delay :: rest.notes }
      | none => ⟨[.observed e], .error (.retriesExhausted index (attempt + 1) e), s⟩
    else ⟨[.observed e], .error (e.tagged index), s⟩
termination_by policy.maxRetries - attempt

variable {policy : RetryPolicy} {index attempt : Nat}

/-! ### One attempt -/

theorem nextDelay_of_lt (h : attempt < policy.maxRetries) :
    policy.nextDelay (attempt + 1) = some (policy.backoff.delay (attempt + 1)) := by
  rw [nextDelay, if_neg (by omega)]

theorem retry_of_settled (h : ¬ FailsForNow (next s).1) :
    policy.retry index next attempt s =
      ⟨((failure? (next s).1).map .observed).toList, (next s).1.mapError (·.tagged index),
        (next s).2⟩ := by
  rw [retry]
  rcases hnext : next s with ⟨e | a, s'⟩
  · rw [hnext] at h
    have hlasting : ¬ e.isTemporary = true := fun htemporary => h ⟨e, rfl, htemporary⟩
    simp only [if_neg hlasting]
    rfl
  · rfl

theorem retry_of_spent {e : Error} (he : (next s).1 = .error e) (htemporary : e.isTemporary = true)
    (hspent : policy.maxRetries ≤ attempt) :
    policy.retry index next attempt s =
      ⟨[.observed e], .error (.retriesExhausted index (attempt + 1) e), (next s).2⟩ := by
  have hdelay : policy.nextDelay (attempt + 1) = none := nextDelay_eq_none_iff.2 (.inr (by omega))
  rw [retry]
  rcases hnext : next s with ⟨outcome, s'⟩
  obtain rfl : outcome = .error e := by rw [← he, hnext]
  simp only [if_pos htemporary]
  split
  · rename_i hsome
    rw [hdelay] at hsome
    contradiction
  · rfl

theorem retry_of_left {e : Error} (he : (next s).1 = .error e) (htemporary : e.isTemporary = true)
    (hleft : attempt < policy.maxRetries) :
    policy.retry index next attempt s =
      let rest := policy.retry index next (attempt + 1) (next s).2
      { rest with
        notes := .observed e :: .wait (policy.backoff.delay (attempt + 1)) :: rest.notes } := by
  have hdelay := nextDelay_of_lt hleft
  rw [retry]
  rcases hnext : next s with ⟨outcome, s'⟩
  obtain rfl : outcome = .error e := by rw [← he, hnext]
  simp only [if_pos htemporary]
  split
  · rename_i delay hsome
    obtain rfl := Option.some.inj (hdelay.symm.trans hsome)
    rfl
  · rename_i hnone
    rw [hdelay] at hnone
    contradiction

/-! ### All attempts -/

/-- The first attempt that does not fail temporarily is the last one. -/
theorem retry_settled {k : Nat} (hk : attempt + k ≤ policy.maxRetries)
    (hbefore : ∀ i < k, FailsForNow (outcomeAt next s i))
    (hlast : ¬ FailsForNow (outcomeAt next s k)) :
    Made (outcomeAt next s) (stateAfter next s) (k + 1) (policy.retry index next attempt s) ∧
      (policy.retry index next attempt s).result =
        (outcomeAt next s k).mapError (·.tagged index) := by
  induction k generalizing attempt s with
  | zero =>
    have hfirst : ¬ FailsForNow (next s).1 := hlast
    rw [retry_of_settled hfirst]
    refine ⟨made_one rfl ?_, rfl⟩
    cases h : failure? (next s).1 <;> rfl
  | succ k ih =>
    obtain ⟨e, he, htemporary⟩ : FailsForNow (next s).1 := hbefore 0 k.succ_pos
    rw [outcomeAt_succ] at hlast ⊢
    obtain ⟨hmade, hresult⟩ := @ih (next s).2 (attempt + 1) (by omega)
      (fun i hi => outcomeAt_succ next s i ▸ hbefore (i + 1) (by omega)) hlast
    rw [retry_of_left he htemporary (by omega)]
    exact ⟨hmade.cons he, hresult⟩

/-- Where all attempts fail temporarily, the budget decides which is the last one. -/
theorem retry_exhausted {k : Nat} (hk : attempt + k = policy.maxRetries)
    (hall : ∀ i ≤ k, FailsForNow (outcomeAt next s i)) :
    Made (outcomeAt next s) (stateAfter next s) (k + 1) (policy.retry index next attempt s) ∧
      ∃ e, outcomeAt next s k = .error e ∧
        (policy.retry index next attempt s).result =
          .error (.retriesExhausted index (policy.maxRetries + 1) e) := by
  induction k generalizing attempt s with
  | zero =>
    obtain ⟨e, he, htemporary⟩ : FailsForNow (next s).1 := hall 0 (Nat.le_refl 0)
    have hspent : policy.maxRetries = attempt := hk.symm
    rw [retry_of_spent he htemporary (Nat.le_of_eq hspent), hspent]
    exact ⟨made_one rfl (by rw [he]; rfl), e, he, rfl⟩
  | succ k ih =>
    obtain ⟨e, he, htemporary⟩ : FailsForNow (next s).1 := hall 0 (Nat.zero_le _)
    rw [outcomeAt_succ]
    obtain ⟨hmade, hrest⟩ := @ih (next s).2 (attempt + 1) (by omega)
      (fun i hi => outcomeAt_succ next s i ▸ hall (i + 1) (by omega))
    rw [retry_of_left he htemporary (by omega)]
    exact ⟨hmade.cons he, hrest⟩

theorem isTemporary_tagged (index : Nat) (e : Error) :
    (e.tagged index).isTemporary = e.isTemporary := by
  simp only [Error.isTemporary, Error.classify_tagged]

/-- The budget is spent, or there is a first attempt within it that does not fail temporarily. -/
theorem exhausts_or_settles (retries : Nat) (outcome : Nat → Except Error α) :
    (∀ i ≤ retries, FailsForNow (outcome i)) ∨
      ∃ k ≤ retries, (∀ i < k, FailsForNow (outcome i)) ∧ ¬ FailsForNow (outcome k) := by
  classical
  by_cases hall : ∀ i ≤ retries, FailsForNow (outcome i)
  · exact .inl hall
  · simp only [not_forall] at hall
    obtain ⟨i, hi, hnot⟩ := hall
    have hexists : ∃ i, ¬ FailsForNow (outcome i) := ⟨i, hnot⟩
    exact .inr ⟨Nat.find hexists, Nat.le_trans (Nat.find_min' hexists hnot) hi,
      fun j hj => not_not.1 (Nat.find_min hexists hj), Nat.find_spec hexists⟩

/-- The loop keeps the law of its budget. -/
theorem lawful_retry (policy : RetryPolicy) (index : Nat) (next : σ → Except Error α × σ) (s : σ) :
    Lawful policy.maxRetries index (outcomeAt next s) (stateAfter next s)
      (policy.retry index next 0 s) where
  settled k hk := retry_settled (by omega)
  exhausted := retry_exhausted (Nat.zero_add _)
  lasting e he := by
    rcases exhausts_or_settles policy.maxRetries (outcomeAt next s) with hall | ⟨k, hk, hbefore, hlast⟩
    · obtain ⟨e', -, hresult⟩ : ∃ e', _ ∧ (policy.retry index next 0 s).result =
          .error (.retriesExhausted index (policy.maxRetries + 1) e') :=
        (retry_exhausted (Nat.zero_add _) hall).2
      obtain rfl := Except.error.inj (he.symm.trans hresult)
      rfl
    · have hresult : (policy.retry index next 0 s).result =
          (outcomeAt next s k).mapError (·.tagged index) :=
        (retry_settled (by omega) hbefore hlast).2
      rw [he] at hresult
      cases houtcome : outcomeAt next s k with
      | ok a =>
        rw [houtcome] at hresult
        contradiction
      | error e' =>
        rw [houtcome] at hresult
        obtain rfl := Except.error.inj hresult
        rw [isTemporary_tagged, Bool.eq_false_iff]
        exact fun htemporary => hlast ⟨e', houtcome, htemporary⟩

end RetryPolicy

/-! ### Parsing a batch -/

/-- How an attempt to parse the batch ends, with its offsets moved to the source. -/
def Attempt.outcome (b : Batch) : Attempt → Except Error Schema
  | .parsed schema => .ok schema
  | .failed e => .error (e.relocate b.offset)
  | .crashed text => .error (.crashed b.index text)

def Batch.Outcome.retried (o : Batch.Outcome σ) : Retried Schema σ := ⟨o.notes, o.result, o.state⟩

theorem Batch.parse_eq_retry (policy : RetryPolicy) (next : σ → Attempt × σ) (b : Batch)
    (attempt : Nat) (s : σ) : (b.parse policy next attempt s).retried =
      policy.retry b.index (fun s => ((next s).1.outcome b, (next s).2)) attempt s := by
  fun_induction Batch.parse policy next b attempt s with
  | case1 attempt s schema s' hnext => rw [RetryPolicy.retry, hnext]; rfl
  | case2 attempt s text s' hnext => rw [RetryPolicy.retry, hnext]; rfl
  | case3 attempt s e s' hnext e' htemporary delay hdelay hle rest ih =>
    obtain rfl := Option.some.inj (hdelay.symm.trans (RetryPolicy.nextDelay_of_lt hle))
    rw [RetryPolicy.retry_of_left (e := e') (by rw [hnext]; rfl) htemporary hle, hnext, ← ih]
    rfl
  | case4 attempt s e s' hnext e' htemporary hdelay =>
    have hspent : policy.maxRetries ≤ attempt := by
      rcases RetryPolicy.nextDelay_eq_none_iff.1 hdelay with h | h <;> omega
    rw [RetryPolicy.retry_of_spent (e := e') (by rw [hnext]; rfl) htemporary hspent, hnext]
    rfl
  | case5 attempt s e s' hnext e' hlasting =>
    rw [RetryPolicy.retry, hnext]
    exact (if_neg hlasting).symm

/-! ### Reading the source -/

/-- How a read ends. No bytes are the end of input; a read that never returns gives not even those. -/
def Read.outcome : Read → Except Error (Option (List UInt8))
  | .data bytes => .ok (some bytes)
  | .failure kind text => .error (.io kind text)
  | .pending => .ok none

namespace Batcher

/-- One read; behind the last one the input has ended. -/
def nextRead : List Read → Except Error (Option (List UInt8)) × List Read
  | [] => (.ok (some []), [])
  | r :: reads => (r.outcome, reads)

/-- Reads from the source, and again while that fails temporarily. -/
def read (policy : RetryPolicy) (b : Batcher) (reads : List Read) :
    Retried (Option (List UInt8)) (List Read) :=
  policy.retry b.index nextRead 0 reads

/-- What follows a read. -/
def goOn (policy : RetryPolicy) (b : Batcher) (r : Retried (Option (List UInt8)) (List Read)) :
    List Step × End :=
  match r.result with
  | .ok (some []) => b.close
  | .ok (some bytes) =>
    let (b, found) := b.feedAll [] bytes
    let (steps, last) := run policy b 0 r.state
    (found.reverse.map .batch ++ steps, last)
  | .ok none => ([], .stalled)
  | .error e => ([], .failed e)

theorem run_eq_retry (policy : RetryPolicy) (b : Batcher) (attempt : Nat) (reads : List Read) :
    run policy b attempt reads =
      let r := policy.retry b.index nextRead attempt reads
      (r.notes.map .note ++ (b.goOn policy r).1, (b.goOn policy r).2) := by
  induction reads generalizing attempt with
  | nil => rw [run, RetryPolicy.retry]; rfl
  | cons first reads ih =>
    cases first with
    | data bytes =>
      rw [RetryPolicy.retry]
      cases bytes with
      | nil => rw [run]; rfl
      | cons byte bytes => rw [run]; rfl; simp
    | pending => rw [run, RetryPolicy.retry]; rfl
    | failure kind text =>
      have he : (nextRead (.failure kind text :: reads)).1 = .error (.io kind text) := rfl
      rw [run]
      by_cases htemporary : (Error.io kind text).isTemporary = true
      · rw [if_pos htemporary]
        by_cases hleft : attempt < policy.maxRetries
        · rw [RetryPolicy.nextDelay_of_lt hleft, RetryPolicy.retry_of_left he htemporary hleft, ih]
          rfl
        · rw [RetryPolicy.nextDelay_eq_none_iff.2 (.inr (by omega)),
            RetryPolicy.retry_of_spent he htemporary (by omega)]
          rfl
      · have hsettled : ¬ FailsForNow (nextRead (.failure kind text :: reads)).1 := by
          rintro ⟨e, he', htemporary'⟩
          obtain rfl := Except.error.inj (he.symm.trans he')
          exact htemporary htemporary'
        rw [if_neg htemporary, RetryPolicy.retry_of_settled hsettled]
        rfl

theorem stateAfter_nextRead (reads : List Read) (n : Nat) :
    stateAfter nextRead reads n = reads.drop n := by
  induction n generalizing reads with
  | zero => rfl
  | succ n ih =>
    rw [stateAfter_succ, ih]
    cases reads with
    | nil => rw [List.drop_nil]; exact List.drop_nil
    | cons => rfl

theorem outcomeAt_nextRead (reads : List Read) (i : Nat) :
    outcomeAt nextRead reads i = (reads.getD i (.data [])).outcome := by
  rw [outcomeAt, stateAfter_nextRead, List.getD_eq_getElem?_getD, ← List.head?_drop]
  cases reads.drop i <;> rfl

/-- The reads of a source are its attempts, and behind them the input has ended. -/
theorem lawful_read (policy : RetryPolicy) (b : Batcher) (reads : List Read) :
    Lawful policy.maxRetries b.index (fun i => (reads.getD i (.data [])).outcome) reads.drop
      (b.read policy reads) := by
  have hlaw := RetryPolicy.lawful_retry policy b.index nextRead reads
  rwa [funext (outcomeAt_nextRead reads), funext (stateAfter_nextRead reads)] at hlaw

end Batcher

/-- **The retry budget is exact**, for the attempts on the bytes of a batch and for the reads between
two batches alike. -/
theorem budget_exact (policy : RetryPolicy) (b : Batch) (attempt : List UInt8 → σ → Attempt × σ)
    (s : σ) (batcher : Batcher) (reads : List Read) :
    (let after := fun n => (fun s => (attempt b.data s).2)^[n] s
     Lawful policy.maxRetries b.index (fun i => (attempt b.data (after i)).1.outcome b) after
      (b.parse policy (attempt b.data) 0 s).retried) ∧
    batcher.run policy 0 reads =
      (let r := batcher.read policy reads
       (r.notes.map .note ++ (batcher.goOn policy r).1, (batcher.goOn policy r).2)) ∧
    Lawful policy.maxRetries batcher.index (fun i => (reads.getD i (.data [])).outcome) reads.drop
      (batcher.read policy reads) := by
  refine ⟨?_, batcher.run_eq_retry policy 0 reads, batcher.lawful_read policy reads⟩
  rw [b.parse_eq_retry]
  exact RetryPolicy.lawful_retry policy b.index (fun s => ((attempt b.data s).1.outcome b, _)) s

/-- A parser that is always busy is asked once more, and then the errors show what it said last. -/
theorem budget_exact_always_busy :
    let busy := fun (_ : List UInt8) (n : Nat) => (Attempt.failed (.temporary "busy"), n + 1)
    let out := (⟨3, 100, []⟩ : Batch).parse { maxRetries := 1 } (busy []) 0 0
    (∀ i ≤ 1, FailsForNow ((busy [] i).1.outcome ⟨3, 100, []⟩)) ∧
      out.retried.observed = [.temporary "busy", .temporary "busy"] ∧ out.state = 2 ∧
      out.result = .error (.retriesExhausted 3 2 (.temporary "busy")) := by
  intro busy out
  have hfails : ∀ i ≤ 1, FailsForNow ((busy [] i).1.outcome ⟨3, 100, []⟩) :=
    fun i _ => ⟨.temporary "busy", rfl, rfl⟩
  obtain ⟨hlaw, -⟩ :=
    budget_exact { maxRetries := 1 } ⟨3, 100, []⟩ busy 0 (.init {} 1) []
  obtain ⟨hmade, e, he, hresult⟩ := hlaw.exhausted fun i _ => ⟨.temporary "busy", rfl, rfl⟩
  obtain rfl := Except.error.inj he
  exact ⟨hfails, hmade.observed, hmade.state, hresult⟩

end

end DdlBridge
