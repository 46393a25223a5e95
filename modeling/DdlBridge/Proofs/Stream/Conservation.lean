import DdlBridge.Proofs.Statement.Content
import DdlBridge.Proofs.Statement.Lexing
import DdlBridge.Proofs.Stream.Work

/-!
# Batching conserves the source

The batches of a source and a rest without content make up the source, however the source is
delivered (`run_conserves`). Nothing between two batches is lost, because a statement that ends had
content, so a batch that is long enough is never dropped.
-/

namespace DdlBridge.Batcher

open Statement Scanner Text

/-! ### Schedules of reads -/

/-- Reads that deliver bytes although up to `retries` reads in a row fail temporarily; `attempt`
counts those that have just failed. -/
inductive Delivers (retries : Nat) : Nat → List Read → List UInt8 → Prop where
  | exhausted (attempt : Nat) : Delivers retries attempt [] []
  | ended (attempt : Nat) (reads : List Read) : Delivers retries attempt (.data [] :: reads) []
  | data {attempt : Nat} {chunk : List UInt8} {reads : List Read} {bytes : List UInt8}
      (hchunk : chunk ≠ []) (hrest : Delivers retries 0 reads bytes) :
      Delivers retries attempt (.data chunk :: reads) (chunk ++ bytes)
  | failure {attempt : Nat} {kind : IoKind} {text : String} {reads : List Read} {bytes : List UInt8}
      (hkind : kind.isTemporary = true) (hattempt : attempt < retries)
      (hrest : Delivers retries (attempt + 1) reads bytes) :
      Delivers retries attempt (.failure kind text :: reads) bytes

/-- What a run comes to depends on the bytes alone. -/
theorem run_of_delivers {policy : RetryPolicy} {attempt : Nat} {reads : List Read}
    {bytes : List UInt8} (h : Delivers policy.maxRetries attempt reads bytes) (b : Batcher) :
    batches (run policy b attempt reads).1 =
        (b.feedAll [] bytes).2.reverse ++ batches (b.feedAll [] bytes).1.close.1 ∧
      (run policy b attempt reads).2 = (b.feedAll [] bytes).1.close.2 := by
  induction h generalizing b with
  | exhausted attempt => exact ⟨by rw [run]; rfl, by rw [run]; rfl⟩
  | ended attempt reads => exact ⟨by rw [run]; rfl, by rw [run]; rfl⟩
  | @data attempt chunk reads bytes hchunk hrest ih =>
    obtain ⟨byte, chunk, rfl⟩ := List.exists_cons_of_ne_nil hchunk
    obtain ⟨hbatches, hend⟩ := ih (b.feedAll [] (byte :: chunk)).1
    have hrun : run policy b attempt (.data (byte :: chunk) :: reads) =
        ((b.feedAll [] (byte :: chunk)).2.reverse.map .batch ++
            (run policy (b.feedAll [] (byte :: chunk)).1 0 reads).1,
          (run policy (b.feedAll [] (byte :: chunk)).1 0 reads).2) := rfl
    rw [hrun, feedAll_append, feedAll_found _ (b.feedAll [] (byte :: chunk)).2]
    refine ⟨?_, hend⟩
    rw [batches_append, batches_map_batch, hbatches]
    simp only [List.reverse_append, List.append_assoc]
  | @failure attempt kind text reads bytes hkind hattempt hrest ih =>
    have htemporary : (Error.io kind text).isTemporary = true := by
      simp [Error.isTemporary, Error.classify, hkind]
    have hdelay : policy.nextDelay (attempt + 1) = some (policy.backoff.delay (attempt + 1)) := by
      rw [RetryPolicy.nextDelay, if_neg (by omega)]
    obtain ⟨hbatches, hend⟩ := ih b
    rw [run]
    simp only [htemporary, if_true, hdelay]
    exact ⟨hbatches, hend⟩

/-! ### What batches are -/

/-- The batches are numbered from 0, and each starts where those before it end. -/
def Consecutive (bs : List Batch) : Prop :=
  ∀ front b back, bs = front ++ b :: back →
    b.index = front.length ∧ b.offset = (front.flatMap (·.data)).length

/-- The batch ends at the first statement end that lies at or behind its least size. -/
structure Full (rules : LexicalRules) (size : Nat) (source : List UInt8) (b : Batch) : Prop where
  long : size ≤ b.data.length
  ends : ∃ x ∈ (scan rules source).boundaries, x.index + 1 = b.offset + b.data.length
  first : ∀ x ∈ (scan rules source).boundaries, b.offset + size ≤ x.index + 1 →
    b.offset + b.data.length ≤ x.index + 1

/-- The full batches that can be cut from a source. -/
structure Filled (rules : LexicalRules) (size : Nat) (source : List UInt8) (bs : List Batch) :
    Prop where
  consecutive : Consecutive bs
  whole : bs.flatMap (·.data) <+: source
  full : ∀ b ∈ bs, Full rules size source b
  /-- What is left makes no full batch. -/
  short : ∀ x ∈ (scan rules source).boundaries, (bs.flatMap (·.data)).length ≤ x.index →
    x.index + 1 < (bs.flatMap (·.data)).length + size

/-- Behind `front` no statement ends, and no byte is content. -/
structure Idle (rules : LexicalRules) (front tail : List UInt8) : Prop where
  uncut : ∀ x ∈ (scan rules (front ++ tail)).boundaries, x.index < front.length
  empty : ∀ part, part <+: tail → part ≠ [] → (scan rules (front ++ part)).scanner.content = false

/-- All the batches of a source. -/
structure Conserves (rules : LexicalRules) (size : Nat) (source : List UInt8) (bs : List Batch) :
    Prop where
  consecutive : Consecutive bs
  whole : ∃ tail, bs.flatMap (·.data) ++ tail = source ∧ Idle rules (bs.flatMap (·.data)) tail
  full : ∀ front b back, bs = front ++ b :: back → back ≠ [] → Full rules size source b

/-! ### Scans of longer sources -/

theorem mem_boundaries_of_mem {rules : LexicalRules} {source more : List UInt8} {x : Boundary}
    (h : x ∈ (scan rules source).boundaries) : x ∈ (scan rules (source ++ more)).boundaries := by
  induction more using List.reverseRecOn with
  | nil => rwa [List.append_nil]
  | append_singleton more byte ih =>
    rw [← List.append_assoc, scan_concat, boundaries_step]
    exact List.mem_append_right _ ih

/-- Content stays where no statement ends. -/
theorem content_append {rules : LexicalRules} {source more : List UInt8}
    (h : (scan rules source).scanner.content = true)
    (huncut : ∀ x ∈ (scan rules (source ++ more)).boundaries, x.index < source.length) :
    (scan rules (source ++ more)).scanner.content = true := by
  induction more using List.reverseRecOn with
  | nil => rwa [List.append_nil]
  | append_singleton more byte ih =>
    rw [← List.append_assoc] at huncut ⊢
    have hbefore := ih fun x hx => huncut x (mem_boundaries_of_mem hx)
    have hkept := kept_step hbefore (Char.ofNat byte.toNat)
    have hnot : ((scan rules (source ++ more)).scanner.feed byte).2 = false := by
      rw [Bool.eq_false_iff]
      intro hcut
      have hlt : (scan rules (source ++ more)).index < source.length :=
        huncut ⟨_, _⟩ (by
          rw [scan_concat, boundaries_step, if_pos hcut]
          exact List.mem_cons_self)
      rw [(scanner_scan rules (source ++ more)).2, List.length_append] at hlt
      omega
    rw [scan_concat]
    rwa [kept, if_neg (by rw [Bool.not_eq_true]; exact hnot)] at hkept

variable {rules : LexicalRules} {size : Nat} {source : List UInt8} {b : Batch} {bs : List Batch}

theorem Consecutive.concat (h : Consecutive bs) (hindex : b.index = bs.length)
    (hoffset : b.offset = (bs.flatMap (·.data)).length) : Consecutive (bs ++ [b]) := by
  intro front x back hparts
  rcases List.eq_nil_or_concat back with rfl | ⟨back, last, rfl⟩
  · obtain ⟨rfl, hx⟩ := List.append_inj' hparts rfl
    obtain rfl := (List.cons.inj hx).1
    exact ⟨hindex, hoffset⟩
  · have hparts' : bs ++ [b] = (front ++ x :: back) ++ [last] := by simpa using hparts
    obtain ⟨rfl, -⟩ := List.append_inj' hparts' rfl
    exact h front x back rfl

/-- A batch stays full when more bytes are read. -/
theorem Full.append (h : Full rules size source b) (more : List UInt8) :
    Full rules size (source ++ more) b where
  long := h.long
  ends := by
    obtain ⟨x, hx, hend⟩ := h.ends
    exact ⟨x, mem_boundaries_of_mem hx, hend⟩
  first x hx hfar := by
    obtain ⟨y, hy, hend⟩ := h.ends
    rcases mem_boundaries_append hx with hx | hbehind
    · exact h.first x hx hfar
    · have hlt := lt_of_mem_boundaries hy
      omega

/-! ### One byte -/

/-- The batcher that has cut `bs`, last first, off a source. -/
structure Divided (rules : LexicalRules) (size : Nat) (source : List UInt8) (b : Batcher)
    (bs : List Batch) : Prop where
  scanner : b.scanner = (scan rules source).scanner
  batchSize : b.batchSize = size
  index : b.index = bs.length
  offset : b.offset = source.length
  start : b.start = (bs.reverse.flatMap (·.data)).length
  whole : bs.reverse.flatMap (·.data) ++ b.current.reverse = source
  consecutive : Consecutive bs.reverse
  full : ∀ x ∈ bs, Full rules size source x
  short : ∀ x ∈ (scan rules source).boundaries, b.start ≤ x.index → x.index + 1 < b.start + size
  complete : b.complete = true ↔ ∃ x ∈ (scan rules source).boundaries, b.start ≤ x.index

variable {batcher : Batcher}

theorem divided_init (rules : LexicalRules) (hsize : 1 ≤ size) :
    Divided rules size [] (init rules size) [] where
  scanner := rfl
  batchSize := max_eq_left hsize
  index := rfl
  offset := rfl
  start := rfl
  whole := rfl
  consecutive front x back hparts := absurd hparts (by simp)
  full x hx := absurd hx List.not_mem_nil
  short x hx := absurd hx List.not_mem_nil
  complete := by simp [init, scan]

/-- Reading a byte, whether or not a statement ends there. -/
def taken (b : Batcher) (byte : UInt8) : Batcher :=
  { b with scanner := (b.scanner.feed byte).1, current := byte :: b.current, offset := b.offset + 1 }

theorem feed_eq (b : Batcher) (byte : UInt8) :
    b.feed byte =
      if (b.scanner.feed byte).2 then (b.taken byte).endStatement else (b.taken byte, none) := by
  unfold feed taken
  rfl

theorem Divided.uncut {byte : UInt8} (h : Divided rules size source batcher bs)
    (hcut : (batcher.scanner.feed byte).2 = false) :
    Divided rules size (source ++ [byte]) (batcher.taken byte) bs := by
  have hsame : (scan rules (source ++ [byte])).boundaries = (scan rules source).boundaries := by
    rw [scan_concat, boundaries_step, ← h.scanner, hcut]
    rfl
  refine {
    scanner := ?_, batchSize := h.batchSize, index := h.index, offset := ?_, start := h.start,
    whole := ?_, consecutive := h.consecutive, full := fun x hx => (h.full x hx).append [byte],
    short := ?_, complete := ?_ }
  · rw [scan_concat, taken, h.scanner]
    rfl
  · rw [taken, h.offset, List.length_append, List.length_singleton]
  · rw [taken, List.reverse_cons, ← List.append_assoc, h.whole]
  · rw [hsame]
    exact h.short
  · rw [hsame]
    exact h.complete

/-- A statement that ends had content, so the current batch is complete. -/
theorem Divided.complete_noted {byte : UInt8} (h : Divided rules size source batcher bs)
    (hcut : (batcher.scanner.feed byte).2 = true) : (batcher.taken byte).noted.complete = true := by
  have hlast : (batcher.scanner.feed byte).1.lastContent = true := by
    rw [h.scanner] at hcut ⊢
    exact ((content_of_scan rules source).1.step _).2 hcut
  simp only [noted, taken, hlast, Bool.or_true]

theorem mem_boundaries_concat {byte : UInt8} (hcut : ((scan rules source).scanner.feed byte).2 = true)
    {x : Boundary} : x ∈ (scan rules (source ++ [byte])).boundaries ↔
      x = ⟨source.length, ((scan rules source).scanner.feed byte).1.lastContent⟩ ∨
        x ∈ (scan rules source).boundaries := by
  rw [scan_concat, boundaries_step, if_pos hcut, (scanner_scan rules source).2]
  exact List.mem_cons

theorem Divided.length_current (h : Divided rules size source batcher bs) :
    batcher.start + batcher.current.length = source.length := by
  have hlength := congrArg List.length h.whole
  rwa [List.length_append, List.length_reverse, ← h.start] at hlength

/-- The statement end comes before the batch is long enough. -/
theorem Divided.goesOn {byte : UInt8} (h : Divided rules size source batcher bs)
    (hcut : (batcher.scanner.feed byte).2 = true)
    (hshort : source.length + 1 - batcher.start < size) :
    Divided rules size (source ++ [byte]) (batcher.taken byte).noted bs := by
  have hcomplete := h.complete_noted hcut
  rw [h.scanner] at hcut
  have hlength := h.length_current
  refine {
    scanner := ?_, batchSize := h.batchSize, index := h.index, offset := ?_, start := h.start,
    whole := ?_, consecutive := h.consecutive, full := fun x hx => (h.full x hx).append [byte],
    short := fun x hx hstart => ?_, complete := ?_ }
  · rw [scan_concat, noted, taken, h.scanner]
    rfl
  · rw [noted, taken, h.offset, List.length_append, List.length_singleton]
  · rw [noted, taken, List.reverse_cons, ← List.append_assoc, h.whole]
  · rcases (mem_boundaries_concat hcut).1 hx with rfl | hx
    · show source.length + 1 < batcher.start + size
      omega
    · exact h.short x hx hstart
  · refine ⟨fun _ => ⟨_, (mem_boundaries_concat hcut).2 (.inl rfl), ?_⟩, fun _ => hcomplete⟩
    show batcher.start ≤ source.length
    omega

/-- The batch that ends behind `byte`. -/
def ending (b : Batcher) (byte : UInt8) : Batch := (b.taken byte).batch

theorem Divided.full_ending {byte : UInt8} (hsize : 1 ≤ size) (h : Divided rules size source batcher bs)
    (hcut : (batcher.scanner.feed byte).2 = true)
    (hlong : size ≤ source.length + 1 - batcher.start) :
    Full rules size (source ++ [byte]) (batcher.ending byte) := by
  rw [h.scanner] at hcut
  have hlength := h.length_current
  have hdata : (batcher.ending byte).data.length = batcher.current.length + 1 := by
    simp [ending, batch, taken]
  have hoffset : (batcher.ending byte).offset = batcher.start := rfl
  refine ⟨by omega, ⟨_, (mem_boundaries_concat hcut).2 (.inl rfl), ?_⟩, fun x hx hfar => ?_⟩
  · rw [hdata, hoffset]
    show source.length + 1 = _
    omega
  · rw [hdata, hoffset]
    rw [hoffset] at hfar
    rcases (mem_boundaries_concat hcut).1 hx with rfl | hx
    · show _ ≤ source.length + 1
      omega
    · have hnear := h.short x hx
      omega

/-- The statement end is the end of the batch. -/
theorem Divided.ends {byte : UInt8} (hsize : 1 ≤ size) (h : Divided rules size source batcher bs)
    (hcut : (batcher.scanner.feed byte).2 = true)
    (hlong : size ≤ source.length + 1 - batcher.start) :
    Divided rules size (source ++ [byte]) (batcher.taken byte).noted.cut
      (batcher.ending byte :: bs) := by
  have hnoted := h.complete_noted hcut
  have hfull := h.full_ending hsize hcut hlong
  rw [h.scanner] at hcut
  have hlength := h.length_current
  have hwhole : bs.reverse.flatMap (·.data) ++ (batcher.ending byte).data = source ++ [byte] := by
    rw [ending, batch, taken, List.reverse_cons, ← List.append_assoc, h.whole]
  have hparts : (batcher.ending byte :: bs).reverse.flatMap (·.data) = source ++ [byte] := by
    rw [List.reverse_cons, List.flatMap_append, List.flatMap_singleton, hwhole]
  -- the next batch starts behind all that was scanned, so no boundary lies in it yet
  have hnone : ∀ x ∈ (scan rules (source ++ [byte])).boundaries, ¬ source.length + 1 ≤ x.index := by
    intro x hx
    have hlt := lt_of_mem_boundaries hx
    rw [List.length_append, List.length_singleton] at hlt
    omega
  refine {
    scanner := ?_, batchSize := h.batchSize, index := ?_, offset := ?_, start := ?_, whole := ?_,
    consecutive := ?_, full := List.forall_mem_cons.2 ⟨hfull, fun x hx => (h.full x hx).append [byte]⟩,
    short := fun x hx hstart => ?_, complete := ?_ }
  · rw [scan_concat]
    show (batcher.scanner.feed byte).1 = _
    rw [h.scanner]
    rfl
  · rw [Batcher.cut, if_pos hnoted, List.length_cons, ← h.index]
    rfl
  · show batcher.offset + 1 = _
    rw [h.offset, List.length_append, List.length_singleton]
  · rw [hparts, List.length_append, ← h.offset]
    rfl
  · rw [hparts]
    exact List.append_nil _
  · rw [List.reverse_cons]
    refine h.consecutive.concat ?_ h.start
    rw [List.length_reverse, ← h.index]
    rfl
  · refine absurd ?_ (hnone x hx)
    rw [← h.offset]
    exact hstart
  · refine ⟨fun hcomplete => absurd hcomplete (by simp [Batcher.cut]), ?_⟩
    rintro ⟨x, hx, hstart⟩
    refine absurd ?_ (hnone x hx)
    rw [← h.offset]
    exact hstart

/-- Whatever the byte, the batcher goes on as one that has divided the source. -/
theorem Divided.feed (hsize : 1 ≤ size) (h : Divided rules size source batcher bs) (byte : UInt8) :
    Divided rules size (source ++ [byte]) (batcher.feed byte).1
      ((batcher.feed byte).2.toList ++ bs) := by
  rw [feed_eq]
  cases hcut : (batcher.scanner.feed byte).2 with
  | false => exact h.uncut hcut
  | true =>
    rw [if_pos rfl, endStatement, h.complete_noted hcut]
    have hlength : (batcher.taken byte).noted.offset - (batcher.taken byte).noted.start =
        source.length + 1 - batcher.start := by
      rw [← h.offset]
      rfl
    rw [hlength]
    by_cases hshort : source.length + 1 - batcher.start < size
    · rw [if_pos (by rw [← h.batchSize] at hshort; exact hshort)]
      exact h.goesOn hcut hshort
    · rw [if_neg (by rw [← h.batchSize] at hshort; exact hshort)]
      exact h.ends hsize hcut (by omega)

theorem divided_feedAll (hsize : 1 ≤ size) (rules : LexicalRules) (source : List UInt8) :
    Divided rules size source ((init rules size).feedAll [] source).1
      ((init rules size).feedAll [] source).2 := by
  -- the source grows at its end, as the batcher reads it
  induction source using List.reverseRecOn with
  | nil => exact divided_init rules hsize
  | append_singleton source byte ih =>
    rw [feedAll_append]
    exact ih.feed hsize byte

/-! ### The end of input -/

theorem Divided.filled (h : Divided rules size source batcher bs) :
    Filled rules size source bs.reverse where
  consecutive := h.consecutive
  whole := ⟨_, h.whole⟩
  full x hx := h.full x (List.mem_reverse.1 hx)
  short := by
    rw [← h.start]
    exact h.short

/-- What is left has no content, and it is dropped. -/
theorem Divided.conserves_drop (h : Divided rules size source batcher bs)
    (hcomplete : batcher.complete = false) (hcontent : (scan rules source).scanner.content = false) :
    Conserves rules size source bs.reverse := by
  have huncut : ∀ x ∈ (scan rules source).boundaries, x.index < batcher.start := by
    intro x hx
    by_contra hbehind
    rw [h.complete.2 ⟨x, hx, by omega⟩] at hcomplete
    contradiction
  refine ⟨h.consecutive, ⟨batcher.current.reverse, h.whole, ?_, ?_⟩, ?_⟩
  · rw [h.whole, ← h.start]
    exact huncut
  · intro part hpart _
    obtain ⟨rest, hrest⟩ := hpart
    have hsource : (bs.reverse.flatMap (·.data) ++ part) ++ rest = source := by
      rw [List.append_assoc, hrest, h.whole]
    rw [Bool.eq_false_iff]
    intro hpart
    have hbehind : ∀ x ∈ (scan rules ((bs.reverse.flatMap (·.data) ++ part) ++ rest)).boundaries,
        x.index < (bs.reverse.flatMap (·.data) ++ part).length := by
      intro x hx
      rw [hsource] at hx
      have hlt := huncut x hx
      rw [List.length_append, ← h.start]
      omega
    have hcontent' := content_append hpart hbehind
    rw [hsource, hcontent] at hcontent'
    contradiction
  · intro front b back hparts _
    exact h.full b (List.mem_reverse.1 (hparts ▸ by simp))

/-- What is left is the last batch. -/
theorem Divided.conserves_batch (h : Divided rules size source batcher bs) :
    Conserves rules size source (bs.reverse ++ [batcher.batch]) := by
  have hwhole : (bs.reverse ++ [batcher.batch]).flatMap (·.data) = source := by
    rw [List.flatMap_append, List.flatMap_singleton]
    exact h.whole
  refine ⟨h.consecutive.concat ?_ h.start, ⟨[], ?_, ?_, ?_⟩, ?_⟩
  · rw [List.length_reverse]
    exact h.index
  · rw [hwhole, List.append_nil]
  · rw [hwhole, List.append_nil]
    exact fun x hx => lt_of_mem_boundaries hx
  · intro part hpart hne
    exact absurd (List.prefix_nil.1 hpart) hne
  · intro front b back hparts hne
    obtain ⟨back, last, rfl⟩ := (List.eq_nil_or_concat back).resolve_left hne
    have hparts' : bs.reverse ++ [batcher.batch] = (front ++ b :: back) ++ [last] := by
      simpa using hparts
    obtain ⟨hbs, -⟩ := List.append_inj' hparts' rfl
    exact h.full b (List.mem_reverse.1 (hbs ▸ by simp))

/-- How a source ends: with all its batches, or with an error behind those that are full. -/
inductive Outcome (rules : LexicalRules) (size : Nat) (source : List UInt8) :
    List Batch → End → Prop where
  | done {bs : List Batch} (hfinish : (scan rules source).scanner.finish.isOk = true)
      (hbatches : Conserves rules size source bs) : Outcome rules size source bs (.done bs.length)
  | failed {bs : List Batch} {e : Error} (hfinish : (scan rules source).scanner.finish = .error e)
      (hbatches : Filled rules size source bs) :
      Outcome rules size source bs (.failed (.inBatch bs.length e))

theorem tagged_of_finish {s : Scanner} {e : Error} (h : s.finish = .error e) (n : Nat) :
    e.tagged n = .inBatch n e := by
  unfold Scanner.finish unfinished? at h
  cases hregion : s.region <;> rw [hregion] at h <;> cases h <;> rfl

theorem content_of_finish {s t : Scanner} (h : s.finish = .ok t) : t.content = s.content := by
  unfold Scanner.finish at h
  split at h
  case h_1 => contradiction
  case h_2 =>
    obtain rfl := Except.ok.inj h
    exact content_endWord s

theorem Divided.outcome_close (h : Divided rules size source batcher bs) :
    Outcome rules size source (bs.reverse ++ batches batcher.close.1) batcher.close.2 := by
  cases hfinish : (scan rules source).scanner.finish with
  | error e =>
    have hclose : batcher.close = ([.note (.observed e)], .failed (.inBatch bs.reverse.length e)) := by
      rw [close, Batcher.finish, h.scanner, hfinish, List.length_reverse, ← h.index,
        ← tagged_of_finish hfinish]
      rfl
    rw [hclose, show batches [Step.note (.observed e)] = [] from rfl, List.append_nil]
    exact .failed hfinish h.filled
  | ok scanner =>
    have hcontent : scanner.content = (scan rules source).scanner.content := content_of_finish hfinish
    have hok : (scan rules source).scanner.finish.isOk = true := by rw [hfinish]; rfl
    have hbatch : batcher.finish = .ok (if batcher.complete || scanner.content then
        some batcher.batch else none) := by
      rw [Batcher.finish, h.scanner, hfinish]
      rfl
    cases hleft : batcher.complete || scanner.content with
    | true =>
      have hclose : batcher.close = ([.batch batcher.batch],
          .done (bs.reverse ++ [batcher.batch]).length) := by
        rw [close, hbatch, if_pos hleft, h.index, List.length_append, List.length_reverse]
        rfl
      rw [hclose]
      exact .done hok h.conserves_batch
    | false =>
      have hclose : batcher.close = ([], .done bs.reverse.length) := by
        rw [close, hbatch, if_neg (by rw [hleft]; decide), h.index, List.length_reverse]
      rw [hclose, show batches [] = [] from rfl, List.append_nil]
      rw [Bool.or_eq_false_iff] at hleft
      exact .done hok (h.conserves_drop hleft.1 (hcontent ▸ hleft.2))

/-- **Batching conserves the source.** Whatever the schedule of the reads, the batches and the end
are those that the bytes decide. -/
theorem run_conserves {policy policy' : RetryPolicy} (rules : LexicalRules) (hsize : 1 ≤ size)
    {reads reads' : List Read} (h : Delivers policy.maxRetries 0 reads source)
    (h' : Delivers policy'.maxRetries 0 reads' source) :
    Outcome rules size source (batches ((init rules size).run policy 0 reads).1)
        ((init rules size).run policy 0 reads).2 ∧
      batches ((init rules size).run policy 0 reads).1 =
        batches ((init rules size).run policy' 0 reads').1 ∧
      ((init rules size).run policy 0 reads).2 = ((init rules size).run policy' 0 reads').2 := by
  obtain ⟨hbatches, hend⟩ := run_of_delivers h (init rules size)
  obtain ⟨hbatches', hend'⟩ := run_of_delivers h' (init rules size)
  refine ⟨?_, hbatches.trans hbatches'.symm, hend.trans hend'.symm⟩
  rw [hbatches, hend]
  exact (divided_feedAll hsize rules source).outcome_close

/-- A read between two statements fails, and the bytes come in other chunks. -/
theorem run_conserves_interrupted :
    let reads : List Read :=
      [.data (encode ['a', ';', 'b']), .failure .interrupted "", .data (encode [';', ' '])]
    let reads' : List Read := [.data (encode ['a', ';', 'b', ';', ' ']), .data []]
    let out := (init Dialect.postgres.rules 2).run { maxRetries := 1 } 0 reads
    let out' := (init Dialect.postgres.rules 2).run {} 0 reads'
    out.2 = .done 2 ∧
      Outcome Dialect.postgres.rules 2 (encode ['a', ';', 'b', ';', ' ']) (batches out.1) out.2 ∧
      batches out.1 = batches out'.1 ∧ out.2 = out'.2 := by
  have h : Delivers 1 0 [.data (encode ['a', ';', 'b']), .failure .interrupted "",
      .data (encode [';', ' '])] (encode ['a', ';', 'b'] ++ (encode [';', ' '] ++ [])) :=
    .data (by decide) (.failure rfl (by decide) (.data (by decide) (.exhausted 0)))
  have h' : Delivers 0 0 [.data (encode ['a', ';', 'b', ';', ' ']), .data []]
      (encode ['a', ';', 'b', ';', ' '] ++ []) := .data (by decide) (.ended 0 [])
  exact ⟨by decide, run_conserves Dialect.postgres.rules (by decide) h h'⟩

end DdlBridge.Batcher
