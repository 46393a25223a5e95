import DdlBridge.Proofs.Grammar.Script
import DdlBridge.Proofs.Stream.Aggregator
import DdlBridge.Proofs.Stream.Batch
import DdlBridge.Stream.Pipeline

/-!
# Calls on sources that are read without failures

A call that takes its batches in order ends as its statements do, wherever they are cut into batches
(`call_of_finished`). It never waits, so that no deadline matters.
-/

namespace DdlBridge

open Statement Scanner Text Grammar

/-! ### The outcome of one batch -/

theorem isTemporary_of_parseScript {d : Dialect} {script : List Char} {e : Error}
    (h : parseScript d script = .error e) : e.isTemporary = false := by
  cases hscript : (trim script).isEmpty with
  | true =>
    unfold parseScript at h
    rw [hscript] at h
    exact Except.error.inj h ▸ rfl
  | false =>
    cases hsplit : split d.rules script with
    | error e' =>
      rw [parseScript_of_error hscript hsplit] at h
      obtain ⟨text, rfl⟩ := exists_of_split_eq_error hsplit
      exact Except.error.inj h ▸ rfl
    | ok statements =>
      rw [parseScript_of_ok hscript hsplit] at h
      obtain ⟨offset, text, rfl⟩ := exists_of_define_eq_error h
      rfl

/-- Moving and tagging an error does not make it temporary. -/
theorem isTemporary_relocate (base : Nat) (e : Error) :
    (e.relocate base).isTemporary = e.isTemporary := by
  simp only [Error.isTemporary, Error.classify_relocate]

/-- Parsed once, a batch comes to what its text defines, with errors moved to the source. Nothing is
waited for. -/
theorem parse_encode (policy : RetryPolicy) (d : Dialect) (index start : Nat) (text : List Char) :
    ((⟨index, start, encode text⟩ : Batch).parse policy (Attempt.run d (encode text)) 0 []).result =
      (parseScript d text).mapError (fun e => (e.relocate start).tagged index) ∧
    ((⟨index, start, encode text⟩ : Batch).parse policy (Attempt.run d (encode text)) 0 []).state = [] ∧
    ∀ n ∈ ((⟨index, start, encode text⟩ : Batch).parse policy (Attempt.run d (encode text)) 0 []).notes,
      ∃ e, n = .observed e := by
  have hrun : Attempt.run d (encode text) [] = (Attempt.ofResult (parseScript d text), []) := by
    rw [Attempt.run, Attempt.text, Utf8.decode_encode]
  cases hparse : parseScript d text with
  | ok schema =>
    rw [Batch.parse, hrun, hparse]
    exact ⟨rfl, rfl, by simp [Attempt.ofResult]⟩
  | error e =>
    have hpermanent : (e.relocate start).isTemporary = false := by
      rw [isTemporary_relocate, isTemporary_of_parseScript hparse]
    rw [Batch.parse, hrun, hparse]
    simp only [Attempt.ofResult, hpermanent]
    exact ⟨rfl, rfl, by simp⟩

/-! ### Batches in order -/

theorem expired_note (deadline : Option Nat) {l : Log} (e : Error) (h : l.expired = false) :
    (l.note deadline (.observed e)).expired = false := by
  unfold Log.note
  rw [h]
  simp

theorem expired_foldl_note (deadline : Option Nat) {notes : List Note}
    (hnotes : ∀ n ∈ notes, ∃ e, n = .observed e) {l : Log} (h : l.expired = false) :
    (notes.foldl (Log.note deadline) l).expired = false := by
  induction notes generalizing l with
  | nil => exact h
  | cons n notes ih =>
    obtain ⟨e, rfl⟩ := hnotes n List.mem_cons_self
    exact ih (fun n' hmem => hnotes n' (List.mem_cons_of_mem _ hmem)) (expired_note deadline e h)

/-- A call that goes on takes a batch, unless its deadline passes meanwhile. -/
theorem StreamParser.step_batch (p : StreamParser) (deadline : Option Nat) {s : Progress} {b : Batch}
    {out : Batch.Outcome Attempt.Faults} (hlog : s.log.expired = false) (hfailure : s.failure = none)
    (hout : b.parse p.config.retryPolicy (Attempt.run p.dialect b.data) 0 s.faults = out)
    (hlog' : (out.notes.foldl (Log.note deadline) s.log).expired = false) :
    p.step deadline s (.batch b) =
      match s.aggregator.accept b.index out.result with
      | .ok aggregator =>
        { s with log := out.notes.foldl (Log.note deadline) s.log, faults := out.state, aggregator }
      | .error e =>
        { s with
          log := out.notes.foldl (Log.note deadline) s.log, faults := out.state, failure := some e } := by
  rw [StreamParser.step, if_neg (by simp [hfailure, hlog])]
  unfold StreamParser.takeBatch
  rw [hout]
  dsimp only
  have hgoes : ¬ (out.notes.foldl (Log.note deadline) s.log).expired = true := by
    rw [hlog']
    exact Bool.false_ne_true
  cases s.aggregator.accept b.index out.result with
  | ok aggregator => exact if_neg hgoes
  | error e => exact if_neg hgoes

/-- A call that has failed takes nothing more. -/
theorem StreamParser.step_of_failure (p : StreamParser) (deadline : Option Nat) {s : Progress}
    {e : Error} (hfailure : s.failure = some e) (step : Batcher.Step) :
    p.step deadline s step = s := by
  unfold StreamParser.step
  exact if_pos (.inl (by rw [hfailure]; rfl))

/-- A call that has taken `count` batches with these statements. -/
inductive Merged (d : Dialect) (statements : List Statement) (count : Nat) (s : Progress) : Prop where
  | parsed (schema : Schema) (hdefine : define d {} statements = .ok schema)
      (hlog : s.log.expired = false) (hfaults : s.faults = []) (hfailure : s.failure = none)
      (haggregator : s.aggregator = { schema, next := count })
  | failed (e : Error) (index : Nat) (hdefine : define d {} statements = .error e)
      (hlog : s.log.expired = false) (hfailure : s.failure = some (.inBatch index e))

/-- One batch more. -/
theorem Merged.step {p : StreamParser} (deadline : Option Nat) {statements new : List Statement}
    {count start : Nat} {text : List Char} {s : Progress} (htext : ∃ c ∈ text, isBlank c = false)
    (hsplit : split p.dialect.rules text = .ok new) (h : Merged p.dialect statements count s) :
    Merged p.dialect (statements ++ new.map (moved start)) (count + 1)
      (p.step deadline s (.batch ⟨count, start, encode text⟩)) := by
  cases h with
  | failed e index hdefine hlog hfailure =>
    rw [p.step_of_failure deadline hfailure]
    exact .failed e index (by rw [define_append, hdefine]; rfl) hlog hfailure
  | parsed schema hdefine hlog hfaults hfailure haggregator =>
    obtain ⟨hresult, hstate, hnotes⟩ :=
      parse_encode p.config.retryPolicy p.dialect count start text
    rw [parseScript_of_ok (isEmpty_trim_eq_false.2 htext) hsplit] at hresult
    rw [← hfaults] at hresult hstate hnotes
    have hmoved := define_moved (d := p.dialect) {} schema start new
    rw [Schema.append_empty] at hmoved
    have hwhole : define p.dialect {} (statements ++ new.map (moved start)) =
        define p.dialect schema (new.map (moved start)) := by
      rw [define_append, hdefine]
      rfl
    -- the step takes the batch, and its notes do not end the call
    generalize hout : (⟨count, start, encode text⟩ : Batch).parse p.config.retryPolicy
      (Attempt.run p.dialect (encode text)) 0 s.faults = out at hresult hstate hnotes
    have hlog' := expired_foldl_note deadline hnotes hlog
    have hstep := p.step_batch (b := ⟨count, start, encode text⟩) deadline hlog hfailure hout hlog'
    rw [hstep]
    cases hnew : define p.dialect {} new with
    | ok fragment =>
      rw [hnew] at hresult hmoved
      rw [hresult, haggregator]
      simp only [Except.mapError, Aggregator.accept_due]
      exact .parsed (schema.append fragment) (hwhole.trans hmoved) hlog' (hstate.trans hfaults)
        hfailure rfl
    | error e =>
      rw [hnew] at hresult hmoved
      obtain ⟨offset, text', rfl⟩ := exists_of_define_eq_error hnew
      rw [hresult]
      exact .failed _ count (hwhole.trans hmoved) hlog' rfl

theorem Merged.of_holds {p : StreamParser} (deadline : Option Nat) {bs : List Batch}
    {statements : List Statement} (h : Batcher.Holds p.dialect.rules bs statements) {s : Progress}
    (hs : Merged p.dialect [] 0 s) :
    Merged p.dialect statements bs.length ((bs.reverse.map .batch).foldl (p.step deadline) s) := by
  induction h with
  | nil => exact hs
  | snoc hbs htext hsplit ih =>
    rw [List.reverse_cons, List.map_append, List.foldl_append, List.length_cons]
    exact ih.step deadline htext hsplit

/-! ### The whole call -/

section

variable {p : StreamParser} {script : List Char} {chunks : List (List UInt8)}

theorem call_result (p : StreamParser) (source : List Read) :
    (p.call (some source) none []).result =
      let batcher := Batcher.init p.dialect.rules p.config.batchSize
      let run := batcher.run p.config.retryPolicy 0 source
      StreamParser.conclude p.config.timeout?
        (run.1.foldl (p.step p.config.timeout?) { faults := [] }) run.2 := by
  have hdeadline : StreamParser.earlier p.config.timeout? none = p.config.timeout? := by
    cases p.config.timeout? <;> rfl
  have hnow : (p.config.timeout? == some 0) = false := by
    rw [beq_eq_false_iff_ne, StreamConfig.timeout?]
    split
    · simp
    · simpa using ‹_›
  simp only [StreamParser.call, hdeadline, hnow]

theorem conclude_of_failure {deadline : Option Nat} {s : Progress} {last : Batcher.End} {e : Error}
    (hlog : s.log.expired = false) (hfailure : s.failure = some e) :
    StreamParser.conclude deadline s last = .error e := by
  simp only [StreamParser.conclude, hlog, hfailure, Bool.false_eq_true, if_false]

theorem conclude_of_end {deadline : Option Nat} {s : Progress} {last : Batcher.End}
    (hlog : s.log.expired = false) (hfailure : s.failure = none) :
    StreamParser.conclude deadline s last = match last with
      | .done count => s.aggregator.finish count
      | .failed e => .error e
      | .stalled => .error (.timeout (deadline.getD 0 * 1000000)) := by
  unfold StreamParser.conclude
  rw [hlog, hfailure]
  cases last <;> rfl

theorem step_note (p : StreamParser) (deadline : Option Nat) {s : Progress} (e : Error)
    (hlog : s.log.expired = false) :
    (p.step deadline s (.note (.observed e))).log.expired = false ∧
      (p.step deadline s (.note (.observed e))).failure = s.failure := by
  rw [StreamParser.step]
  split
  · exact ⟨hlog, rfl⟩
  · exact ⟨expired_note deadline e hlog, rfl⟩

theorem merged_init (d : Dialect) : Merged d [] 0 { faults := [] } :=
  .parsed {} rfl rfl rfl rfl rfl

/-- The result of a call is what the statements of its source define, or the first of their errors
with the batch it was met in. -/
theorem call_of_finished (hdivides : Batcher.Divides p.dialect.rules p.config.batchSize script)
    (hblank : ∀ c ∈ script, isBlank c = true → c ∈ plainBlanks)
    (hchunks : ∀ chunk ∈ chunks, chunk ≠ []) (hdata : chunks.flatten = encode script)
    {statements : List Statement} (hsplit : split p.dialect.rules script = .ok statements) :
    (∀ schema, define p.dialect {} statements = .ok schema →
      (p.call (some (chunks.map .data)) none []).result = .ok schema) ∧
    (∀ e, define p.dialect {} statements = .error e →
      ∃ index, (p.call (some (chunks.map .data)) none []).result = .error (.inBatch index e)) := by
  have hrules := lineFree_or p.dialect
  obtain ⟨done, t, b, bs, rfl, hfeed, hcut⟩ := hdivides
  have hfinished : (after p.dialect.rules (done ++ t)).unfinished? = none := by
    cases h : (after p.dialect.rules (done ++ t)).unfinished? with
    | none => rfl
    | some e =>
      rw [split_of_unfinished h] at hsplit
      exact absurd hsplit (by simp)
  obtain ⟨last, statements', hclose, hsplit', hholds⟩ := Batcher.close_of_finished hrules
    (fun c hc => hblank c (List.mem_append_right _ hc)) hcut hfinished
  obtain rfl := Except.ok.inj (hsplit.symm.trans hsplit')
  have hmerged := Merged.of_holds p.config.timeout? hholds (merged_init p.dialect)
  rw [call_result]
  dsimp only
  rw [Batcher.run_data _ _ hchunks, hdata, hfeed, hclose]
  have hsteps : bs.reverse.map Batcher.Step.batch ++ last.toList.map .batch =
      (last.toList ++ bs).reverse.map .batch := by
    rw [← List.map_append, List.reverse_append]
    cases last <;> rfl
  dsimp only
  rw [hsteps]
  cases hmerged with
  | parsed schema hdefine hlog hfaults hfailure haggregator =>
    rw [hdefine, conclude_of_end hlog hfailure, haggregator]
    constructor
    · rintro _ ⟨⟩
      simp [Aggregator.finish]
    · rintro _ ⟨⟩
  | failed e index hdefine hlog hfailure =>
    rw [hdefine, conclude_of_failure hlog hfailure]
    constructor
    · rintro _ ⟨⟩
    · rintro _ ⟨⟩
      exact ⟨index, rfl⟩

/-- Where the source ends inside a literal or a comment, the call fails. -/
theorem call_of_unfinished (hdivides : Batcher.Divides p.dialect.rules p.config.batchSize script)
    (hblank : ∀ c ∈ script, isBlank c = true → c ∈ plainBlanks)
    (hchunks : ∀ chunk ∈ chunks, chunk ≠ []) (hdata : chunks.flatten = encode script)
    {e : Error} (hsplit : split p.dialect.rules script = .error e) :
    ∃ e', (p.call (some (chunks.map .data)) none []).result = .error e' := by
  have hrules := lineFree_or p.dialect
  obtain ⟨done, t, b, bs, rfl, hfeed, hcut⟩ := hdivides
  have hunfinished : (after p.dialect.rules (done ++ t)).unfinished? = some e := by
    cases h : (after p.dialect.rules (done ++ t)).unfinished? with
    | none =>
      rw [split_of_finished h] at hsplit
      exact absurd hsplit (by simp)
    | some e' =>
      rw [split_of_unfinished h] at hsplit
      rw [Except.error.inj hsplit]
  have hmerged := Merged.of_holds p.config.timeout? hcut.holds (merged_init p.dialect)
  rw [call_result]
  dsimp only
  rw [Batcher.run_data _ _ hchunks, hdata, hfeed, Batcher.close_of_unfinished hcut hunfinished]
  dsimp only
  rw [List.foldl_append, List.foldl_cons, List.foldl_nil]
  cases hmerged with
  | parsed schema hdefine hlog hfaults hfailure haggregator =>
    obtain ⟨hlog', hfailure'⟩ := step_note p p.config.timeout? e hlog
    exact ⟨_, conclude_of_end hlog' (hfailure'.trans hfailure)⟩
  | failed e' index hdefine hlog hfailure =>
    obtain ⟨hlog', hfailure'⟩ := step_note p p.config.timeout? e hlog
    exact ⟨_, conclude_of_failure hlog' (hfailure'.trans hfailure)⟩

end

end DdlBridge
