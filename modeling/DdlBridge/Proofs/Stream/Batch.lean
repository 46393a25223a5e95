import DdlBridge.Proofs.Statement.Split
import DdlBridge.Stream.Batch

/-!
# What the batches of a source hold

Every batch is a text that starts and ends where a statement does, and the statements of the
batches, each moved to where its batch starts, are the statements of the source (`close_of_cut`). This
holds however large the batches are.
-/

namespace DdlBridge.Batcher

open Statement Scanner Text

/-! ### Whole characters -/

/-- Bytes above ASCII end no batch. -/
theorem feedAll_of_le (bytes : List UInt8) (hbytes : ∀ byte ∈ bytes, 128 ≤ byte.toNat) {b : Batcher}
    (hsound : b.scanner.Sound) (found : List Batch) : b.feedAll found bytes =
      ({ b with
        scanner := (bytes.foldl feedByte (b.scanner, false)).1
        current := bytes.reverse ++ b.current
        offset := b.offset + bytes.length }, found) := by
  induction bytes generalizing b with
  | nil => rfl
  | cons byte bytes ih =>
    have hbyte := hbytes byte List.mem_cons_self
    have hnot := feed_of_le hsound hbyte
    have hfeed : b.feed byte =
        ({ b with
          scanner := (b.scanner.feed byte).1, current := byte :: b.current, offset := b.offset + 1 },
          none) := by
      simp only [Batcher.feed, hnot, Bool.false_eq_true, if_false]
    have hfirst : feedByte (b.scanner, false) byte = ((b.scanner.feed byte).1, false) := by
      simp only [feedByte, hnot, Bool.or_self]
    have hrest : b.feedAll found (byte :: bytes) =
        (b.feed byte).1.feedAll ((b.feed byte).2.toList ++ found) bytes := rfl
    rw [hrest, hfeed]
    simp only [Option.toList_none, List.nil_append]
    rw [ih (fun byte' hmem => hbytes byte' (List.mem_cons_of_mem _ hmem)) (hsound.step _),
      List.foldl_cons, hfirst]
    simp only [List.reverse_cons, List.append_assoc, List.singleton_append, List.length_cons,
      Nat.add_assoc, Nat.add_comm 1]

/-- The batcher behind a character that ends no statement. -/
def reads (b : Batcher) (c : Char) : Batcher :=
  { b with
    scanner := (feedChar b.scanner c).1
    current := (String.utf8EncodeChar c).reverse ++ b.current
    offset := b.offset + c.utf8Size }

theorem feedAll_char {b : Batcher} (hsound : b.scanner.Sound) (found : List Batch) (c : Char) :
    b.feedAll found (String.utf8EncodeChar c) =
      if (feedChar b.scanner c).2 then
        ((b.reads c).endStatement.1, (b.reads c).endStatement.2.toList ++ found)
      else (b.reads c, found) := by
  rcases Nat.lt_or_ge c.toNat 128 with h | h
  · have hbytes := utf8EncodeChar_of_lt h
    have hsize : c.utf8Size = 1 := by
      rw [← String.length_utf8EncodeChar, hbytes]
      rfl
    have hfeed : feedChar b.scanner c = b.scanner.feed (UInt8.ofNat c.toNat) := by
      rw [feedChar_of_lt _ h, Scanner.feed, ofNat_toNat_byte h]
    have hreads : b.reads c =
        { b with
          scanner := (b.scanner.feed (UInt8.ofNat c.toNat)).1
          current := UInt8.ofNat c.toNat :: b.current, offset := b.offset + 1 } := by
      rw [reads, hfeed, hbytes, hsize]
      rfl
    rw [hbytes, hfeed, hreads]
    simp only [feedAll, List.foldl_cons, List.foldl_nil, feedOn, Batcher.feed]
    split <;> rfl
  · obtain ⟨t, -, -, hfeed, -⟩ := feedChar_of_le hsound h
    rw [feedAll_of_le _ (fun byte => le_of_mem_utf8EncodeChar h) hsound, hfeed]
    rw [if_neg (by simp), reads, String.length_utf8EncodeChar]
    rfl

theorem feedAll_append (b : Batcher) (found : List Batch) (front rest : List UInt8) :
    b.feedAll found (front ++ rest) = (b.feedAll found front).1.feedAll (b.feedAll found front).2 rest := by
  rw [feedAll, List.foldl_append]
  rfl

/-! ### What the batches hold -/

/-- The batches `bs`, last first, hold these statements, each moved to its place. -/
inductive Holds (rules : LexicalRules) : List Batch → List Statement → Prop where
  | nil : Holds rules [] []
  | snoc {bs : List Batch} {statements new : List Statement} {text : List Char} {start : Nat}
      (hbs : Holds rules bs statements) (htext : ∃ c ∈ text, isBlank c = false)
      (hsplit : split rules text = .ok new) :
      Holds rules (⟨bs.length, start, encode text⟩ :: bs) (statements ++ new.map (moved start))

/-- The batcher behind the text `done ++ t`, of which `t` is not cut off yet. -/
structure Cut (rules : LexicalRules) (done t : List Char) (b : Batcher) (bs : List Batch) : Prop where
  begins : Begins rules done
  agrees : Agrees rules done t
  scanner : b.scanner = after rules (done ++ t)
  current : b.current = (encode t).reverse
  start : b.start = width done
  offset : b.offset = width (done ++ t)
  index : b.index = bs.length
  holds : Holds rules bs (splitter rules done).found.reverse
  /-- Without content no statement is dropped. -/
  idle : b.complete = false → (splitter rules (done ++ t)).found = (splitter rules done).found
  busy : b.complete = true → ∃ c ∈ t, isBlank c = false

variable {rules : LexicalRules} {done t : List Char} {c : Char} {b : Batcher} {bs : List Batch}

theorem Cut.init (rules : LexicalRules) (size : Nat) : Cut rules [] [] (Batcher.init rules size) [] where
  begins := .start
  agrees := .inl (joined_of_not_mem List.not_mem_nil)
  scanner := rfl
  current := rfl
  start := rfl
  offset := rfl
  index := rfl
  holds := .nil
  idle _ := rfl
  busy h := absurd h (by simp [Batcher.init])

theorem batch_eq (h : Cut rules done t b bs) : b.batch = ⟨bs.length, width done, encode t⟩ := by
  rw [batch, h.index, h.start, h.current, List.reverse_reverse]

theorem Cut.reads_of_not_cut (h : Cut rules done t b bs) (hagrees : Agrees rules done (t ++ [c]))
    (hcut : cutsAt rules (done ++ t) c = false) : Cut rules done (t ++ [c]) (b.reads c) bs where
  begins := h.begins
  agrees := hagrees
  scanner := by
    rw [reads, h.scanner, ← List.append_assoc, after_concat]
  current := by
    rw [reads, h.current, encode_append, List.reverse_append]
    simp [encode]
  start := h.start
  offset := by
    rw [reads, h.offset]
    simp [Nat.add_assoc]
  index := h.index
  holds := h.holds
  idle hidle := by
    rw [← List.append_assoc, splitter_of_not_cut hcut]
    exact h.idle hidle
  busy hbusy := by
    obtain ⟨d, hd, hblank⟩ := h.busy hbusy
    exact ⟨d, List.mem_append_left _ hd, hblank⟩

theorem Cut.noted_of_cut
    (hblank : ∀ d ∈ t ++ [c], isBlank d = true → d ∈ plainBlanks) (h : Cut rules done t b bs)
    (hjoin : Joined rules done (t ++ [c])) (hcut : cutsAt rules (done ++ t) c = true)
    (hcut' : cutsAt rules t c = true) : Cut rules done (t ++ [c]) (b.reads c).noted bs where
  begins := h.begins
  agrees := .inl hjoin
  scanner := by
    rw [noted, reads, h.scanner, ← List.append_assoc, after_concat]
  current := by
    rw [noted, reads, h.current, encode_append, List.reverse_append]
    simp [encode]
  start := h.start
  offset := by
    rw [noted, reads, h.offset]
    simp [Nat.add_assoc]
  index := h.index
  holds := h.holds
  idle hidle := by
    simp only [noted, Bool.or_eq_false_iff] at hidle
    have hlast : (after rules (done ++ t ++ [c])).lastContent = false := by
      rw [after_concat, ← h.scanner]
      exact hidle.2
    rw [← List.append_assoc, splitter_of_cut hcut]
    simp only [hlast, Splitter.statement?, Bool.false_eq_true, if_false, Option.toList_none,
      List.nil_append]
    exact h.idle hidle.1
  busy _ := by
    by_cases hnone : ∃ d ∈ t ++ [c], isBlank d = false
    · exact hnone
    · have hall : ∀ d ∈ t ++ [c], d ∈ plainBlanks := by
        intro d hd
        refine hblank d hd ?_
        rw [← Bool.not_eq_false]
        exact fun hnot => hnone ⟨d, hd, hnot⟩
      rw [not_cutsAt_blanks hall] at hcut'
      exact absurd hcut' (by simp)

theorem Cut.cut (hrules : LineFree rules ∨ rules.backslashEscapes = false)
    (h : Cut rules done t b bs) (hjoin : Joined rules done t) (hbegin : Begins rules (done ++ t))
    (hbegin' : Begins rules t) : Cut rules (done ++ t) [] b.cut
      ((if b.complete then some b.batch else none).toList ++ bs) where
  begins := hbegin
  agrees := .inl (joined_of_not_mem List.not_mem_nil)
  scanner := by rw [List.append_nil]; exact h.scanner
  current := rfl
  start := h.offset
  offset := by rw [List.append_nil]; exact h.offset
  index := by
    cases hcomplete : b.complete <;> simp [Batcher.cut, hcomplete, h.index]
  holds := by
    have hfound := (Follows.of_joined hrules h.begins hjoin).found
    cases hcomplete : b.complete with
    | false =>
      rw [h.idle hcomplete]
      exact h.holds
    | true =>
      rw [hfound, batch_eq h, List.reverse_append, ← List.map_reverse]
      exact .snoc h.holds (h.busy hcomplete) (split_of_begins hbegin')
  idle _ := by rw [List.append_nil]
  busy hbusy := absurd hbusy (by simp [Batcher.cut])

/-- One character further the batcher is again behind cut and uncut text. -/
theorem Cut.feed_char (hrules : LineFree rules ∨ rules.backslashEscapes = false)
    {rest : List Char} (hsevered : ¬ Severed rules (done ++ (t ++ c :: rest)))
    (hblank : ∀ d ∈ done ++ (t ++ c :: rest), isBlank d = true → d ∈ plainBlanks)
    (h : Cut rules done t b bs) : ∃ done' t' b' bs', done' ++ t' = done ++ (t ++ [c]) ∧
      b.feedAll bs (String.utf8EncodeChar c) = (b', bs') ∧ Cut rules done' t' b' bs' := by
  have hagrees := Agrees.concat h.begins hsevered hblank h.agrees
  have hsound : b.scanner.Sound := h.scanner.symm ▸ sound_after rules _
  have hflag : (feedChar b.scanner c).2 = cutsAt rules (done ++ t) c := by rw [h.scanner, cutsAt]
  rw [feedAll_char hsound, hflag]
  cases hcut : cutsAt rules (done ++ t) c with
  | false => exact ⟨done, t ++ [c], b.reads c, bs, rfl, rfl, h.reads_of_not_cut hagrees hcut⟩
  | true =>
    have hjoin := joined_of_cut hrules h.begins hagrees hcut
    obtain ⟨base, quoted, last, hfeed⟩ := feedChar_append hrules h.begins hjoin
    have hcut' : cutsAt rules t c = true := by
      rw [cutsAt, hfeed] at hcut
      exact hcut
    have hblank' : ∀ d ∈ t ++ [c], isBlank d = true → d ∈ plainBlanks := by
      intro d hd
      refine hblank d (List.mem_append_right _ ?_)
      rw [List.append_cons]
      exact List.mem_append_left _ hd
    have hnoted := h.noted_of_cut hblank' hjoin hcut hcut'
    rw [if_pos rfl, endStatement]
    by_cases hsize : (b.reads c).noted.offset - (b.reads c).noted.start < (b.reads c).noted.batchSize
    · rw [if_pos hsize]
      exact ⟨done, t ++ [c], _, bs, rfl, rfl, hnoted⟩
    · rw [if_neg hsize]
      have hbegin : Begins rules (done ++ (t ++ [c])) := by
        rw [← List.append_assoc]
        exact .cut hcut
      exact ⟨done ++ (t ++ [c]), [], _, _, List.append_nil _, rfl,
        hnoted.cut hrules hjoin hbegin (.cut hcut')⟩

/-- The batcher has read the text in one of these ways. -/
def Divides (rules : LexicalRules) (size : Nat) (script : List Char) : Prop :=
  ∃ done t b bs, done ++ t = script ∧
    (Batcher.init rules size).feedAll [] (encode script) = (b, bs) ∧ Cut rules done t b bs

theorem feedAll_concat (b : Batcher) (cs : List Char) (c : Char) :
    b.feedAll [] (encode (cs ++ [c])) =
      (b.feedAll [] (encode cs)).1.feedAll (b.feedAll [] (encode cs)).2 (String.utf8EncodeChar c) := by
  rw [encode_append, feedAll_append, encode_cons, show encode [] = [] from rfl, List.append_nil]

theorem divides_of_not_severed (hrules : LineFree rules ∨ rules.backslashEscapes = false)
    {script : List Char} (hsevered : ¬ Severed rules script)
    (hblank : ∀ d ∈ script, isBlank d = true → d ∈ plainBlanks) (size : Nat) :
    Divides rules size script := by
  suffices hprefix : ∀ cs rest, cs ++ rest = script → Divides rules size cs from
    hprefix script [] (List.append_nil _)
  intro cs
  induction cs using List.reverseRecOn with
  | nil =>
    intro rest hscript
    exact ⟨[], [], _, _, rfl, rfl, .init rules size⟩
  | append_singleton cs c ih =>
    intro rest hscript
    obtain ⟨done, t, b, bs, rfl, hfeed, hinv⟩ := ih (c :: rest) (by simpa using hscript)
    have htext : done ++ (t ++ c :: rest) = script := by simpa using hscript
    obtain ⟨done', t', b', bs', htext', hfeed', hinv'⟩ :=
      hinv.feed_char hrules (htext.symm ▸ hsevered) (htext.symm ▸ hblank)
    refine ⟨done', t', b', bs', by simpa using htext', ?_, hinv'⟩
    rw [feedAll_concat, hfeed]
    exact hfeed'

/-- A batch that is never long enough holds everything. -/
theorem divides_of_lt {script : List Char}
    (hblank : ∀ d ∈ script, isBlank d = true → d ∈ plainBlanks) {size : Nat}
    (hsize : width script < size) : Divides rules size script := by
  suffices hprefix : ∀ cs rest, cs ++ rest = script → ∃ b,
      (Batcher.init rules size).feedAll [] (encode cs) = (b, []) ∧ b.batchSize = max size 1 ∧
        Cut rules [] cs b [] by
    obtain ⟨b, hfeed, -, hcut⟩ := hprefix script [] (List.append_nil _)
    exact ⟨[], script, b, [], rfl, hfeed, hcut⟩
  intro cs
  induction cs using List.reverseRecOn with
  | nil =>
    intro rest hscript
    exact ⟨_, rfl, rfl, .init rules size⟩
  | append_singleton cs c ih =>
    intro rest hscript
    obtain ⟨b, hfeed, hsame, hinv⟩ := ih (c :: rest) (by simpa using hscript)
    have hjoin : Joined rules [] (cs ++ [c]) := fun u v w hdone => absurd hdone (by simp)
    have hsound : b.scanner.Sound := hinv.scanner.symm ▸ sound_after rules _
    have hflag : (feedChar b.scanner c).2 = cutsAt rules cs c := by rw [hinv.scanner]; rfl
    rw [feedAll_concat, hfeed]
    dsimp only
    rw [feedAll_char hsound, hflag]
    cases hcut : cutsAt rules cs c with
    | false => exact ⟨b.reads c, rfl, hsame, hinv.reads_of_not_cut (.inl hjoin) hcut⟩
    | true =>
      have hnoted := hinv.noted_of_cut
        (fun d hd => hblank d (hscript ▸ List.mem_append_left _ hd)) hjoin hcut hcut
      have hshort : (b.reads c).noted.offset - (b.reads c).noted.start <
          (b.reads c).noted.batchSize := by
        have hwidth : width script = width (cs ++ [c]) + width rest := by
          rw [← hscript, width_append]
        rw [hnoted.offset, hnoted.start]
        change width ([] ++ (cs ++ [c])) - width [] < b.batchSize
        rw [List.nil_append, width_nil, hsame]
        omega
      rw [if_pos rfl, endStatement]
      rw [if_pos hshort]
      exact ⟨_, rfl, hsame, hnoted⟩

/-! ### The end of the source -/

theorem close_of_unfinished {e : Error} (h : Cut rules done t b bs)
    (hunfinished : (after rules (done ++ t)).unfinished? = some e) :
    b.close = ([.note (.observed e)], .failed (e.tagged bs.length)) := by
  have hfinish : b.scanner.finish = .error e := by rw [h.scanner, Scanner.finish, hunfinished]
  rw [close, Batcher.finish, hfinish, h.index]
  rfl

/-- Uncut text with content is not mere white space. -/
theorem Cut.exists_not_blank (hrules : LineFree rules ∨ rules.backslashEscapes = false)
    (hblank : ∀ d ∈ t, isBlank d = true → d ∈ plainBlanks) (h : Cut rules done t b bs)
    (hcontent : (b.complete || b.scanner.content) = true) : ∃ d ∈ t, isBlank d = false := by
  rw [Bool.or_eq_true] at hcontent
  rcases hcontent with hcomplete | hcontent
  · exact h.busy hcomplete
  · by_cases hnone : ∃ d ∈ t, isBlank d = false
    · exact hnone
    · have hall : ∀ d ∈ t, d ∈ plainBlanks := by
        intro d hd
        refine hblank d hd ?_
        rw [← Bool.not_eq_false]
        exact fun hnot => hnone ⟨d, hd, hnot⟩
      obtain ⟨base, quoted, last, hover, -⟩ := after_append hrules h.begins (joined_of_blanks hall)
      rw [h.scanner, hover, after_blanks rules hall] at hcontent
      exact absurd hcontent (by simp [onLine, fresh])

/-- All the batches together hold the statements of the source. -/
theorem close_of_finished (hrules : LineFree rules ∨ rules.backslashEscapes = false)
    (hblank : ∀ d ∈ t, isBlank d = true → d ∈ plainBlanks) (h : Cut rules done t b bs)
    (hfinished : (after rules (done ++ t)).unfinished? = none) : ∃ last : Option Batch, ∃ statements,
      b.close = (last.toList.map .batch, .done (last.toList ++ bs).length) ∧
      split rules (done ++ t) = .ok statements ∧ Holds rules (last.toList ++ bs) statements := by
  have hscanner : b.scanner.finish = .ok b.scanner.endWord := by
    rw [h.scanner, Scanner.finish, hfinished]
  have hfinish : b.finish =
      .ok (if b.complete || b.scanner.content then some b.batch else none) := by
    rw [Batcher.finish, hscanner, ← content_endWord]
    rfl
  cases hcontent : b.complete || b.scanner.content with
  | false =>
    rw [hcontent] at hfinish
    rw [Bool.or_eq_false_iff] at hcontent
    have hsplit : split rules (done ++ t) = .ok (splitter rules done).found.reverse := by
      rw [split_of_finished hfinished, h.idle hcontent.1, ← h.scanner, hcontent.2]
      simp only [Splitter.statement?, Bool.false_eq_true, if_false, Option.toList_none,
        List.append_nil]
    refine ⟨none, _, ?_, hsplit, h.holds⟩
    rw [close, hfinish, h.index]
    rfl
  | true =>
    rw [hcontent] at hfinish
    have hparts := split_append hrules h.begins h.agrees
    rw [split_of_finished hfinished] at hparts
    cases hsplit : split rules t with
    | error e =>
      rw [hsplit] at hparts
      exact absurd hparts (by simp [Except.map])
    | ok new =>
      rw [hsplit] at hparts
      refine ⟨some b.batch, _, ?_, (split_of_finished hfinished).trans hparts, ?_⟩
      · rw [close, hfinish, h.index]
        rfl
      · rw [batch_eq h]
        exact .snoc h.holds (h.exists_not_blank hrules hblank hcontent) hsplit

/-! ### Delivery in chunks -/

theorem feedAll_found (b : Batcher) (found : List Batch) (bytes : List UInt8) :
    b.feedAll found bytes = ((b.feedAll [] bytes).1, (b.feedAll [] bytes).2 ++ found) := by
  induction bytes generalizing b found with
  | nil => rfl
  | cons byte bytes ih =>
    have hrest (found : List Batch) : b.feedAll found (byte :: bytes) =
        (b.feed byte).1.feedAll ((b.feed byte).2.toList ++ found) bytes := rfl
    rw [hrest found, hrest [], ih, ih _ ((b.feed byte).2.toList ++ [])]
    simp only [List.append_nil, List.append_assoc]

/-- How a source is delivered does not matter. -/
theorem run_data (policy : RetryPolicy) (b : Batcher) {chunks : List (List UInt8)}
    (hchunks : ∀ chunk ∈ chunks, chunk ≠ []) :
    run policy b 0 (chunks.map .data) =
      ((b.feedAll [] chunks.flatten).2.reverse.map .batch ++ (b.feedAll [] chunks.flatten).1.close.1,
        (b.feedAll [] chunks.flatten).1.close.2) := by
  induction chunks generalizing b with
  | nil => rfl
  | cons chunk chunks ih =>
    obtain ⟨byte, bytes, rfl⟩ := List.exists_cons_of_ne_nil (hchunks chunk List.mem_cons_self)
    have hrun : run policy b 0 (((byte :: bytes) :: chunks).map .data) =
        ((b.feedAll [] (byte :: bytes)).2.reverse.map .batch ++
          (run policy (b.feedAll [] (byte :: bytes)).1 0 (chunks.map .data)).1,
          (run policy (b.feedAll [] (byte :: bytes)).1 0 (chunks.map .data)).2) := rfl
    rw [hrun, ih _ fun chunk' hmem => hchunks chunk' (List.mem_cons_of_mem _ hmem),
      List.flatten_cons, feedAll_append, feedAll_found _ (b.feedAll [] (byte :: bytes)).2]
    simp only [List.reverse_append, List.map_append, List.append_assoc]

end DdlBridge.Batcher
