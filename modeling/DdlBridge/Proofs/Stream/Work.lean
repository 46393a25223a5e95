import DdlBridge.Proofs.Stream.Call
import DdlBridge.Proofs.Stream.Schedule

/-!
# A call takes its batches in order

`StreamParser.call` takes every batch as soon as it is cut. That is one of the schedules of the same
work, and so a call without a deadline finds a schema if and only if every other schedule of its work
finds that schema (`call_eq_ok_iff_of_schedule`).
-/

namespace DdlBridge

open Aggregator Relation

namespace Batcher

/-! ### The numbers of the batches -/

/-- The batches among the steps of a batcher. -/
def batches : List Step → List Batch
  | [] => []
  | .batch b :: steps => b :: batches steps
  | .note _ :: steps => batches steps

theorem batches_append (steps steps' : List Step) :
    batches (steps ++ steps') = batches steps ++ batches steps' := by
  induction steps with
  | nil => rfl
  | cons step steps ih =>
    cases step with
    | batch b => exact congrArg (b :: ·) ih
    | note n => exact ih

theorem batches_map_batch (bs : List Batch) : batches (bs.map .batch) = bs := by
  induction bs with
  | nil => rfl
  | cons b bs ih => exact congrArg (b :: ·) ih

/-- The batches are numbered from `first` on, and whoever ends well has counted them. -/
structure Numbered (first : Nat) (bs : List Batch) (last : End) : Prop where
  index : bs.map (·.index) = List.range' first bs.length
  count : ∀ count, last = .done count → count = first + bs.length

theorem Numbered.append {first : Nat} {bs bs' : List Batch} {last : End}
    (hindex : bs.map (·.index) = List.range' first bs.length)
    (h : Numbered (first + bs.length) bs' last) : Numbered first (bs ++ bs') last where
  index := by
    rw [List.map_append, hindex, h.index, List.length_append, ← List.range'_append_1]
  count count hlast := by
    rw [h.count count hlast, List.length_append]
    omega

/-- Bytes that end a batch end the one whose turn it is. -/
theorem index_feed (b : Batcher) (byte : UInt8) :
    (b.feed byte).2.toList.map (·.index) = List.range' b.index (b.feed byte).2.toList.length ∧
      (b.feed byte).1.index = b.index + (b.feed byte).2.toList.length := by
  unfold feed
  dsimp only
  split
  · unfold endStatement
    dsimp only
    split
    · exact ⟨rfl, rfl⟩
    · unfold cut
      split
      · exact ⟨rfl, rfl⟩
      · exact ⟨rfl, rfl⟩
  · exact ⟨rfl, rfl⟩

theorem index_feedAll (b : Batcher) (bytes : List UInt8) :
    (b.feedAll [] bytes).2.reverse.map (·.index) =
        List.range' b.index (b.feedAll [] bytes).2.length ∧
      (b.feedAll [] bytes).1.index = b.index + (b.feedAll [] bytes).2.length := by
  induction bytes generalizing b with
  | nil => exact ⟨rfl, rfl⟩
  | cons byte bytes ih =>
    obtain ⟨hindex, hnext⟩ := index_feed b byte
    obtain ⟨hindex', hnext'⟩ := ih (b.feed byte).1
    have hfeed : b.feedAll [] (byte :: bytes) =
        (b.feed byte).1.feedAll (b.feed byte).2.toList bytes := by
      simp only [feedAll, List.foldl_cons, feedOn, List.append_nil]
    rw [hfeed, feedAll_found]
    have hone : (b.feed byte).2.toList.reverse = (b.feed byte).2.toList := by
      cases (b.feed byte).2 <;> rfl
    refine ⟨?_, ?_⟩
    · rw [List.reverse_append, List.map_append, hone, hindex, hindex', hnext, List.length_append,
        Nat.add_comm (List.length _), ← List.range'_append_1]
    · rw [hnext', hnext, List.length_append]
      omega

theorem numbered_close (b : Batcher) : Numbered b.index (batches b.close.1) b.close.2 := by
  unfold close
  split
  case h_1 batch hfinish =>
    have hbatch : batch = b.batch := by
      unfold finish at hfinish
      cases hscanner : b.scanner.finish with
      | error e => rw [hscanner] at hfinish; exact absurd hfinish (by simp [bind, Except.bind])
      | ok scanner =>
        rw [hscanner] at hfinish
        simp only [bind, Except.bind, pure, Except.pure, Except.ok.injEq] at hfinish
        split at hfinish
        · exact (Option.some.inj hfinish).symm
        · exact absurd hfinish (by simp)
    rw [hbatch]
    refine ⟨rfl, ?_⟩
    rintro _ ⟨⟩
    rfl
  case h_2 =>
    refine ⟨rfl, ?_⟩
    rintro _ ⟨⟩
    rfl
  case h_3 => exact ⟨rfl, by simp⟩

theorem numbered_run (policy : RetryPolicy) (b : Batcher) (attempt : Nat) (reads : List Read) :
    Numbered b.index (batches (run policy b attempt reads).1) (run policy b attempt reads).2 := by
  induction reads generalizing b attempt with
  | nil => exact numbered_close b
  | cons read reads ih =>
    cases read with
    | data bytes =>
      cases bytes with
      | nil => exact numbered_close b
      | cons byte bytes =>
        obtain ⟨hindex, hnext⟩ := index_feedAll b (byte :: bytes)
        have hrest := ih (b.feedAll [] (byte :: bytes)).1 0
        rw [hnext, ← List.length_reverse] at hrest
        rw [← List.length_reverse] at hindex
        rw [run]
        dsimp only
        rw [batches_append, batches_map_batch]
        exact Numbered.append hindex hrest
        simp
    | failure kind text =>
      rw [run]
      dsimp only
      split
      · split
        · exact ih b (attempt + 1)
        · exact ⟨rfl, by simp⟩
      · exact ⟨rfl, by simp⟩
    | pending => exact ⟨rfl, by simp [run]⟩

theorem not_stalled_run (policy : RetryPolicy) (b : Batcher) (attempt : Nat) {reads : List Read}
    (hpending : .pending ∉ reads) : (run policy b attempt reads).2 ≠ .stalled := by
  have hclose : ∀ b : Batcher, b.close.2 ≠ .stalled := by
    intro b
    unfold close
    split <;> simp
  induction reads generalizing b attempt with
  | nil => exact hclose b
  | cons read reads ih =>
    have hrest : .pending ∉ reads := fun hmem => hpending (List.mem_cons_of_mem _ hmem)
    cases read with
    | data bytes =>
      cases bytes with
      | nil => exact hclose b
      | cons byte bytes =>
        rw [run]
        · exact ih _ 0 hrest
        · simp
    | failure kind text =>
      rw [run]
      dsimp only
      split
      · split
        · exact ih b (attempt + 1) hrest
        · simp
      · simp
    | pending => exact absurd List.mem_cons_self hpending

end Batcher

/-! ### The work of a call -/

/-- A batch without a fault to come is parsed without one. -/
theorem Batch.state_parse (policy : RetryPolicy) (d : Dialect) (b : Batch) (attempt : Nat) :
    (b.parse policy (Attempt.run d b.data) attempt []).state = [] := by
  have hrun : (Attempt.run d b.data []).2 = [] := by
    unfold Attempt.run
    split <;> rfl
  induction h : policy.maxRetries - attempt using Nat.strong_induction_on generalizing attempt with
  | _ n ih =>
    rw [Batch.parse]
    generalize hnext : Attempt.run d b.data [] = next at hrun
    obtain ⟨outcome, faults⟩ := next
    obtain rfl : faults = [] := hrun
    cases outcome with
    | parsed schema => rfl
    | crashed text => rfl
    | failed e =>
      dsimp only
      split
      · split
        · have hle := RetryPolicy.le_maxRetries_of_nextDelay ‹_›
          exact ih _ (by omega) (attempt + 1) rfl
        · rfl
      · rfl

/-- The outcome of a batch on its own. -/
def StreamParser.outcome (p : StreamParser) (b : Batch) : Except Error Schema :=
  (b.parse p.config.retryPolicy (Attempt.run p.dialect b.data) 0 []).result

/-- What a call on a source works on. -/
def StreamParser.work (p : StreamParser) (source : List Read) : Work :=
  let run := (Batcher.init p.dialect.rules p.config.batchSize).run p.config.retryPolicy 0 source
  { count := (Batcher.batches run.1).length
    outcome := fun i =>
      match (Batcher.batches run.1)[i]? with
      | some b => p.outcome b
      | none => .ok {}
    failure :=
      match run.2 with
      | .failed e => some e
      | _ => none }

variable {p : StreamParser} {work : Work} {k : Nat} {s : Progress}

/-- A call that has taken the first `k` batches of its work. -/
inductive Took (work : Work) (k : Nat) (s : Progress) : Prop where
  | parsed (hlog : s.log.expired = false) (hfaults : s.faults = []) (hfailure : s.failure = none)
      (hok : ∀ i < k, ∃ schema, work.outcome i = .ok schema)
      (haggregator : s.aggregator = { schema := inOrder work.fragment k, next := k })
  | failed (e : Error) (i : Nat) (hlog : s.log.expired = false) (hfailure : s.failure = some e)
      (hi : i < k) (herror : work.outcome i = .error e)

/-- Without a deadline no waiting matters. -/
theorem expired_foldl_note_none (notes : List Note) {l : Log} (h : l.expired = false) :
    (notes.foldl (Log.note none) l).expired = false := by
  induction notes generalizing l with
  | nil => exact h
  | cons n notes ih =>
    refine ih ?_
    cases n with
    | observed e => exact expired_note none e h
    | wait ms =>
      unfold Log.note
      rw [h]
      rfl

theorem Took.note (h : Took work k s) (n : Note) : Took work k (p.step none s (.note n)) := by
  cases h with
  | failed e i hlog hfailure hi herror =>
    rw [p.step_of_failure none hfailure]
    exact .failed e i hlog hfailure hi herror
  | parsed hlog hfaults hfailure hok haggregator =>
    rw [StreamParser.step, if_neg (by simp [hfailure, hlog])]
    exact .parsed (expired_foldl_note_none [n] hlog) hfaults hfailure hok haggregator

theorem Took.batch (h : Took work k s) {b : Batch} (hindex : b.index = k)
    (houtcome : work.outcome k = p.outcome b) : Took work (k + 1) (p.step none s (.batch b)) := by
  cases h with
  | failed e i hlog hfailure hi herror =>
    rw [p.step_of_failure none hfailure]
    exact .failed e i hlog hfailure (Nat.lt_succ_of_lt hi) herror
  | parsed hlog hfaults hfailure hok haggregator =>
    have hstate := Batch.state_parse p.config.retryPolicy p.dialect b 0
    rw [StreamParser.outcome] at houtcome
    rw [← hfaults] at houtcome hstate
    generalize hout : b.parse p.config.retryPolicy (Attempt.run p.dialect b.data) 0 s.faults = out
      at houtcome hstate
    have hlog' := expired_foldl_note_none out.notes hlog
    rw [p.step_batch none hlog hfailure hout hlog', hindex, haggregator]
    cases hresult : out.result with
    | ok schema =>
      rw [hresult] at houtcome
      have hfragment : work.fragment k = schema := by rw [Work.fragment, houtcome]
      simp only [Aggregator.accept_due]
      refine .parsed hlog' (hstate.trans hfaults) hfailure (fun i hi => ?_) ?_
      · rcases Nat.lt_succ_iff_lt_or_eq.1 hi with hi | rfl
        · exact hok i hi
        · exact ⟨schema, houtcome⟩
      · rw [inOrder_succ, hfragment]
    | error e =>
      rw [hresult] at houtcome
      exact .failed e k hlog' rfl (Nat.lt_succ_self k) houtcome

theorem Took.steps (steps : List Batcher.Step) (h : Took work k s)
    (hindex : (Batcher.batches steps).map (·.index) =
      List.range' k (Batcher.batches steps).length)
    (houtcome : ∀ b ∈ Batcher.batches steps, work.outcome b.index = p.outcome b) :
    Took work (k + (Batcher.batches steps).length) (steps.foldl (p.step none) s) := by
  induction steps generalizing k s with
  | nil => exact h
  | cons step steps ih =>
    cases step with
    | note n => exact ih (h.note n) hindex houtcome
    | batch b =>
      rw [Batcher.batches, List.map_cons, List.length_cons, List.range'_succ,
        List.cons.injEq] at hindex
      obtain ⟨hfirst, hrest⟩ := hindex
      have hb := h.batch hfirst (hfirst ▸ houtcome b List.mem_cons_self)
      have hsteps := ih hb hrest fun b' hb' => houtcome b' (List.mem_cons_of_mem _ hb')
      rw [Batcher.batches, List.length_cons, Nat.add_comm _ 1, ← Nat.add_assoc]
      exact hsteps

theorem getElem?_index {bs : List Batch} (hindex : bs.map (·.index) = List.range' 0 bs.length)
    {b : Batch} (hb : b ∈ bs) : bs[b.index]? = some b := by
  obtain ⟨i, hi, rfl⟩ := List.mem_iff_getElem.1 hb
  have hnumber : bs[i].index = i := by
    have hget : (bs.map (·.index))[i]? = some i := by
      rw [hindex, List.getElem?_range' hi]
      simp
    rw [List.getElem?_map, List.getElem?_eq_getElem hi] at hget
    exact Option.some.inj hget
  rw [hnumber, List.getElem?_eq_getElem hi]

/-- What becomes of a batch is kept under its number. -/
theorem outcome_work {source : List Read} {steps : List Batcher.Step} {last : Batcher.End}
    (hrun : (Batcher.init p.dialect.rules p.config.batchSize).run p.config.retryPolicy 0 source =
      (steps, last))
    (hindex : (Batcher.batches steps).map (·.index) = List.range' 0 (Batcher.batches steps).length) :
    ∀ b ∈ Batcher.batches steps, (p.work source).outcome b.index = p.outcome b := by
  intro b hb
  simp only [StreamParser.work, hrun, getElem?_index hindex hb]

/-- A call without a deadline returns all the fragments in order if everything succeeds, and a
failure otherwise. -/
theorem call_of_work {source : List Read} (htimeout : p.config.timeoutMs = 0)
    (hpending : .pending ∉ source) :
    ((p.work source).Succeeds ∧ (p.call (some source) none []).result =
        .ok (inOrder (p.work source).fragment (p.work source).count)) ∨
      ∃ e, (p.work source).Fails e ∧ (p.call (some source) none []).result = .error e := by
  have hdeadline : p.config.timeout? = none := if_pos htimeout
  rw [call_result, hdeadline]
  dsimp only
  have hnumbered := Batcher.numbered_run p.config.retryPolicy
    (Batcher.init p.dialect.rules p.config.batchSize) 0 source
  have hstalled := Batcher.not_stalled_run p.config.retryPolicy
    (Batcher.init p.dialect.rules p.config.batchSize) 0 hpending
  generalize hrun : (Batcher.init p.dialect.rules p.config.batchSize).run p.config.retryPolicy 0
    source = run at hnumbered hstalled
  obtain ⟨steps, last⟩ := run
  have hindex : (Batcher.batches steps).map (·.index) =
    List.range' 0 (Batcher.batches steps).length := hnumbered.index
  have hcount : (p.work source).count = (Batcher.batches steps).length := by
    rw [StreamParser.work, hrun]
  have htook := Took.steps (p := p) steps
    (.parsed rfl rfl rfl (by simp) rfl : Took (p.work source) 0 { faults := [] }) hindex
    (outcome_work hrun hindex)
  rw [Nat.zero_add, ← hcount] at htook
  dsimp only
  cases htook with
  | failed e i hlog hfailure hi herror =>
    exact .inr ⟨e, .inr ⟨i, hi, herror⟩, conclude_of_failure hlog hfailure⟩
  | parsed hlog hfaults hfailure hok haggregator =>
    rw [conclude_of_end hlog hfailure, haggregator]
    cases last with
    | done count =>
      have hfinish : count = (p.work source).count := by
        rw [hcount, hnumbered.count count rfl]
        exact Nat.zero_add _
      refine .inl ⟨⟨?_, hok⟩, ?_⟩
      · rw [StreamParser.work, hrun]
      · rw [hfinish]
        exact if_pos ⟨rfl, rfl⟩
    | failed e =>
      refine .inr ⟨e, .inl ?_, rfl⟩
      rw [StreamParser.work, hrun]
    | stalled => exact absurd rfl hstalled

/-- So it finds a schema if and only if every other schedule of its work finds that schema. -/
theorem call_eq_ok_iff_of_schedule {source : List Read} (htimeout : p.config.timeoutMs = 0)
    (hpending : .pending ∉ source) {workers : Nat} (hworkers : 0 < workers) {s : Schedule.State}
    (hreach : ReflTransGen (Schedule.Step (p.work source)) (Schedule.init workers) s)
    {result : Except Error Schema} (hreturns : Schedule.Returns s result) (schema : Schema) :
    (p.call (some source) none []).result = .ok schema ↔ result = .ok schema := by
  rcases call_of_work htimeout hpending with ⟨hsucceeds, hcall⟩ | ⟨e, hfails, hcall⟩
  · rcases (Schedule.running_of_reachable hworkers hreach).returns hreturns with
      ⟨-, hresult⟩ | ⟨e, hfails, -⟩
    · rw [hcall, hresult]
    · exact absurd hsucceeds (Work.not_succeeds_of_fails hfails)
  · rcases (Schedule.running_of_reachable hworkers hreach).returns hreturns with
      ⟨hsucceeds, -⟩ | ⟨e', -, hresult⟩
    · exact absurd hsucceeds (Work.not_succeeds_of_fails hfails)
    · rw [hcall, hresult]
      simp

end DdlBridge
