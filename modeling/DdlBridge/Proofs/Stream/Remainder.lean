import DdlBridge.Proofs.Statement.Lossless
import DdlBridge.Proofs.Stream.Conservation
import DdlBridge.Proofs.Text.LetterCase

/-!
# Batches that are rejected as empty

A scanner knows the white space of ASCII, but for U+000B, and takes all other white space for content.
A parser knows all of it, and rejects a text that holds nothing else. So a source has a batch that is
rejected as empty if and only if what is left behind its full batches is white space that its scanner
does not know (`exists_empty_iff`).
-/

namespace DdlBridge

namespace Statement

open Scanner Text

variable {rules : LexicalRules} {s : Scanner} {c : Char} {done t w : List Char}

/-! ### White space to a scanner -/

/-- No white space completes the line to one that ends a statement. -/
def Unmarked (line : List Char) : Prop := line = [] ∨ ∃ c ∈ line, c.toUpper ∉ ['/', 'G', 'O']

theorem Unmarked.cons (hc : c.toUpper ∉ ['/', 'G', 'O']) (line : List Char) : Unmarked (c :: line) :=
  .inr ⟨c, List.mem_cons_self, hc⟩

theorem isTerminatorLine_of_unmarked (h : Unmarked s.line) : s.isTerminatorLine = false := by
  have hslash : (s.line == ['/']) = false := by
    rw [beq_eq_false_iff_ne]
    intro hline
    rw [hline] at h
    exact absurd h (by simp [Unmarked])
  have hgo : (upper s.line.reverse == ['G', 'O']) = false := by
    rw [beq_eq_false_iff_ne]
    intro hline
    rcases h with h | ⟨c, hc, hnot⟩
    · rw [h] at hline
      exact absurd hline (by decide)
    · have hmem : c.toUpper ∈ upper s.line.reverse := List.mem_map_of_mem (List.mem_reverse.2 hc)
      rw [hline] at hmem
      exact hnot (List.mem_cons_of_mem _ hmem)
  simp only [isTerminatorLine, hslash, hgo, Bool.and_false, Bool.or_self]

/-- The scanner may stand in white space behind a statement end. -/
structure Blanked (s : Scanner) : Prop where
  region : s.region = .normal
  line : Unmarked s.line

theorem Blanked.endWord (h : Blanked s) : Blanked s.endWord :=
  ⟨(region_endWord s).trans h.region, (line_endWord s).symm ▸ h.line⟩

/-- White space that is content if `p` was read behind `s`. -/
def ReadsBlank (s : Scanner) (p : Prop) (r : Scanner × Bool) : Prop :=
  r.2 = false ∧ Blanked r.1 ∧ (r.1.content = true ↔ s.content = true ∨ p)

theorem Blanked.step_of_plain (h : Blanked s) (hc : c ∈ plainBlanks) :
    ReadsBlank s False (s.step c) := by
  have hstep : s.step c = s.endWord.stepSymbol c := by
    have hword : s.isWordByte c = false := by
      simp only [plainBlanks, List.mem_cons, List.not_mem_nil, or_false] at hc
      rcases hc with rfl | rfl | rfl | rfl | rfl <;> simp [isWordByte]
    rw [step, h.region]
    exact if_neg (by rw [hword]; decide)
  have hstay : ReadsBlank s False (s.endWord, false) :=
    ⟨rfl, h.endWord, by rw [content_endWord]; simp⟩
  have hline : s.endWord.endLine = (s.endWord.resetLine false, false) :=
    if_neg (by rw [isTerminatorLine_of_unmarked h.endWord.line]; decide)
  rw [hstep]
  simp only [plainBlanks, List.mem_cons, List.not_mem_nil, or_false] at hc
  rcases hc with rfl | rfl | rfl | rfl | rfl
  case inr.inr.inl =>
    rw [show s.endWord.stepSymbol '\n' = s.endWord.endLine from rfl, hline]
    exact ⟨rfl, ⟨h.endWord.region, .inl rfl⟩, hstay.2.2⟩
  all_goals exact hstay

theorem Blanked.step_of_tabulation (h : Blanked s) : ReadsBlank s True (s.step '\x0b') := by
  have hstep : s.step '\x0b' = (s.endWord.takePunct '\x0b', false) := by
    rw [step, h.region]
    exact if_neg (by simp [isWordByte])
  rw [hstep]
  exact ⟨rfl, ⟨h.endWord.region, .cons (by decide) _⟩, by simp [takePunct, pushLine]⟩

theorem Blanked.feed_of_le (h : Blanked s) {byte : UInt8} (hbyte : 128 ≤ byte.toNat) :
    ReadsBlank s True (s.feed byte) := by
  have hle := le_toNat_ofNat_byte hbyte
  have hfeed : s.feed byte = s.stepNormal (Char.ofNat byte.toNat) := by
    rw [feed, step, h.region]
  have hupper : (Char.ofNat byte.toNat).toUpper ∉ ['/', 'G', 'O'] := by
    rw [toUpper_of_le hle]
    intro hmem
    have hall : ∀ d ∈ ['/', 'G', 'O'], d.toNat < 128 := by decide
    exact absurd (hall _ hmem) (by omega)
  rw [hfeed, stepNormal, if_pos (by simp [isWordByte, hle])]
  exact ⟨rfl, ⟨h.region, .cons hupper _⟩, by simp [pushLine]⟩

theorem Blanked.foldl_feedByte (h : Blanked s) {bytes : List UInt8} (hne : bytes ≠ [])
    (hbytes : ∀ byte ∈ bytes, 128 ≤ byte.toNat) :
    ReadsBlank s True (bytes.foldl feedByte (s, false)) := by
  induction bytes using List.reverseRecOn with
  | nil => exact absurd rfl hne
  | append_singleton bytes byte ih =>
    have hbyte := hbytes byte (by simp)
    rw [foldl_feedByte_concat]
    rcases List.eq_nil_or_concat bytes with rfl | ⟨front, last, hparts⟩
    · obtain ⟨hcut, hnext, hcontent⟩ := h.feed_of_le hbyte
      exact ⟨hcut, hnext, hcontent⟩
    · obtain ⟨hcut, hnext, -⟩ := ih (by simp [hparts]) fun b hb => hbytes b (List.mem_append_left _ hb)
      obtain ⟨hcut', hnext', hcontent'⟩ := hnext.feed_of_le hbyte
      refine ⟨by simp only [hcut, hcut', Bool.or_self], hnext', ?_⟩
      simp only [hcontent', or_true]

/-- White space ends no statement, and it is content unless it is plain. -/
theorem Blanked.feedChar (h : Blanked s) (hc : isBlank c = true) :
    ReadsBlank s (c ∉ plainBlanks) (feedChar s c) := by
  rcases isBlank_cases hc with hplain | rfl | hge
  · rw [feedChar_of_lt s (lt_of_mem_plainBlanks hplain)]
    rw [show (c ∉ plainBlanks) = False by simp [hplain]]
    exact h.step_of_plain hplain
  · rw [feedChar_of_lt s (by decide), show ('\x0b' ∉ plainBlanks) = True by decide]
    exact h.step_of_tabulation
  · have hnot : c ∉ plainBlanks := fun hplain => absurd (lt_of_mem_plainBlanks hplain) (by omega)
    rw [show (c ∉ plainBlanks) = True by simp [hnot]]
    exact h.foldl_feedByte String.utf8EncodeChar_ne_nil fun byte => le_of_mem_utf8EncodeChar hge

theorem blanked_of_begins (h : Begins rules done) : Blanked (after rules done) := by
  cases h with
  | start => exact ⟨rfl, .inl rfl⟩
  | cut hcut =>
    rw [after_concat]
    rcases feedChar_restarts (sound_after rules _) hcut with ⟨-, line, quoted, last, heq⟩ |
      ⟨-, -, last, heq⟩ <;> rw [heq]
    · exact ⟨rfl, .cons (by decide) _⟩
    · exact ⟨rfl, .inl rfl⟩

/-- White space behind a statement end. -/
theorem blanked_append (hbegin : Begins rules done) (hw : ∀ d ∈ w, isBlank d = true) :
    Blanked (after rules (done ++ w)) ∧
      ((after rules (done ++ w)).content = true ↔ ∃ d ∈ w, d ∉ plainBlanks) := by
  induction w using List.reverseRecOn with
  | nil =>
    rw [List.append_nil, (finished_of_begins hbegin).2]
    exact ⟨blanked_of_begins hbegin, by simp⟩
  | append_singleton w c ih =>
    obtain ⟨hblanked, hcontent⟩ := ih fun d hd => hw d (List.mem_append_left _ hd)
    obtain ⟨-, hnext, hmore⟩ := hblanked.feedChar (hw c (by simp))
    rw [← List.append_assoc, after_concat]
    refine ⟨hnext, hmore.trans ?_⟩
    rw [hcontent]
    simp [or_and_right, exists_or]

/-- A statement that ends holds more than white space. -/
theorem exists_not_blank_of_cut (hbegin : Begins rules done)
    (hcut : cutsAt rules (done ++ t) c = true) : ∃ d ∈ t ++ [c], isBlank d = false := by
  by_contra hnone
  have hall : ∀ d ∈ t ++ [c], isBlank d = true := fun d hd => by
    rw [← Bool.not_eq_false]
    exact fun hnot => hnone ⟨d, hd, hnot⟩
  obtain ⟨hblanked, -⟩ := blanked_append hbegin fun d hd => hall d (List.mem_append_left _ hd)
  rw [cutsAt, (hblanked.feedChar (hall c (by simp))).1] at hcut
  contradiction

end Statement

namespace Batcher

open Statement Scanner Text

/-! ### Batches as texts -/

/-- The batcher has cut `bs`, last first, off the text `done ++ t` at `done`. -/
structure Parted (rules : LexicalRules) (done t : List Char) (b : Batcher) (bs : List Batch) :
    Prop where
  begins : Begins rules done
  scanner : b.scanner = after rules (done ++ t)
  whole : bs.reverse.flatMap (·.data) = encode done
  current : b.current.reverse = encode t
  visible : ∀ x ∈ bs, ∃ text, x.data = encode text ∧ ∃ d ∈ text, isBlank d = false
  busy : b.complete = true → ∃ d ∈ t, isBlank d = false

variable {rules : LexicalRules} {done t : List Char} {c : Char} {b : Batcher} {bs : List Batch}

theorem current_reads (h : b.current.reverse = encode t) (c : Char) :
    (b.reads c).current.reverse = encode (t ++ [c]) := by
  rw [reads, List.reverse_append, List.reverse_reverse, h, encode_append, encode_cons,
    show encode [] = [] from rfl, List.append_nil]

theorem scanner_reads (h : b.scanner = after rules (done ++ t)) (c : Char) :
    (b.reads c).scanner = after rules (done ++ (t ++ [c])) := by
  rw [reads, h, ← List.append_assoc, after_concat]

/-- One character further the text is parted again. -/
theorem Parted.feed_char (h : Parted rules done t b bs) (c : Char) :
    ∃ done' t', done' ++ t' = done ++ (t ++ [c]) ∧
      Parted rules done' t' (b.feedAll bs (String.utf8EncodeChar c)).1
        (b.feedAll bs (String.utf8EncodeChar c)).2 := by
  have hsound : b.scanner.Sound := h.scanner.symm ▸ sound_after rules _
  have hflag : (feedChar b.scanner c).2 = cutsAt rules (done ++ t) c := by rw [h.scanner, cutsAt]
  have hscanner := scanner_reads h.scanner c
  have hcurrent := current_reads h.current c
  rw [feedAll_char hsound, hflag]
  cases hcut : cutsAt rules (done ++ t) c with
  | false =>
    refine ⟨done, t ++ [c], rfl, h.begins, hscanner, h.whole, hcurrent, h.visible, fun hbusy => ?_⟩
    obtain ⟨d, hd, hblank⟩ := h.busy hbusy
    exact ⟨d, List.mem_append_left _ hd, hblank⟩
  | true =>
    have hvisible := exists_not_blank_of_cut h.begins hcut
    have hcomplete : (b.reads c).noted.complete = true := by
      rw [noted, hscanner, ← List.append_assoc, (ends_of_cut hcut).1, Bool.or_true]
    rw [if_pos rfl, endStatement]
    by_cases hshort : (b.reads c).noted.offset - (b.reads c).noted.start < (b.reads c).noted.batchSize
    · rw [if_pos hshort]
      exact ⟨done, t ++ [c], rfl, h.begins, hscanner, h.whole, hcurrent, h.visible, fun _ => hvisible⟩
    · rw [if_neg hshort, if_pos hcomplete]
      refine ⟨done ++ (t ++ [c]), [], List.append_nil _, ?_, ?_, ?_, rfl, ?_, ?_⟩
      · rw [← List.append_assoc]
        exact .cut hcut
      · rw [List.append_nil]
        exact hscanner
      · show ((b.reads c).noted.batch :: bs).reverse.flatMap (·.data) = _
        rw [List.reverse_cons, List.flatMap_append, List.flatMap_singleton, h.whole, encode_append]
        exact congrArg _ hcurrent
      · exact List.forall_mem_cons.2 ⟨⟨_, hcurrent, hvisible⟩, h.visible⟩
      · exact fun hbusy => absurd hbusy (by simp [Batcher.cut])

theorem Parted.init (rules : LexicalRules) (size : Nat) :
    Parted rules [] [] (Batcher.init rules size) [] where
  begins := .start
  scanner := rfl
  whole := rfl
  current := rfl
  visible x hx := absurd hx List.not_mem_nil
  busy hbusy := absurd hbusy (by simp [Batcher.init])

theorem exists_parted (rules : LexicalRules) (size : Nat) (script : List Char) :
    ∃ done t, done ++ t = script ∧
      Parted rules done t ((init rules size).feedAll [] (encode script)).1
        ((init rules size).feedAll [] (encode script)).2 := by
  induction script using List.reverseRecOn with
  | nil => exact ⟨[], [], rfl, .init rules size⟩
  | append_singleton script c ih =>
    obtain ⟨done, t, rfl, hparted⟩ := ih
    rw [feedAll_concat]
    obtain ⟨done', t', hscript, hnext⟩ := hparted.feed_char c
    exact ⟨done', t', by rw [hscript, List.append_assoc], hnext⟩

/-! ### Full batches -/

variable {size : Nat} {source : List UInt8} {x y : Batch} {bs' : List Batch}

theorem Full.length_le (hx : Full rules size source x) (hy : Full rules size source y)
    (hoffset : x.offset = y.offset) : x.data.length ≤ y.data.length := by
  obtain ⟨boundary, hmem, hend⟩ := hy.ends
  have hlong := hy.long
  have hfirst := hx.first boundary hmem (by omega)
  omega

/-- Where no full batch fits, there is none. -/
theorem Filled.no_more {front : List Batch} (hsize : 1 ≤ size) (h : Filled rules size source front)
    (h' : Filled rules size source (front ++ x :: bs)) : False := by
  have hfull := h'.full x (by simp)
  obtain ⟨boundary, hmem, hend⟩ := hfull.ends
  have hlong := hfull.long
  have hoffset := (h'.consecutive front x bs rfl).2
  have hshort := h.short boundary hmem (by omega)
  omega

theorem Filled.head_eq {front : List Batch} (h : Filled rules size source (front ++ x :: bs))
    (h' : Filled rules size source (front ++ y :: bs')) : x = y := by
  obtain ⟨hindex, hoffset⟩ := h.consecutive front x bs rfl
  obtain ⟨hindex', hoffset'⟩ := h'.consecutive front y bs' rfl
  have hx := h.full x (by simp)
  have hy := h'.full y (by simp)
  have hlength : x.data.length = y.data.length :=
    le_antisymm (hx.length_le hy (hoffset.trans hoffset'.symm))
      (hy.length_le hx (hoffset'.trans hoffset.symm))
  have hwhole : front.flatMap (·.data) ++ x.data <+: source := by
    refine .trans ⟨bs.flatMap (·.data), ?_⟩ h.whole
    simp
  have hwhole' : front.flatMap (·.data) ++ y.data <+: source := by
    refine .trans ⟨bs'.flatMap (·.data), ?_⟩ h'.whole
    simp
  have hdata := (List.prefix_of_prefix_length_le hwhole hwhole' (by simp [hlength])).eq_of_length
    (by simp [hlength])
  obtain ⟨index, offset, data⟩ := x
  obtain ⟨index', offset', data'⟩ := y
  obtain rfl : index = index' := hindex.trans hindex'.symm
  obtain rfl : offset = offset' := hoffset.trans hoffset'.symm
  obtain rfl : data = data' := List.append_cancel_left hdata
  rfl

/-- A source has only one list of full batches. -/
theorem Filled.unique (hsize : 1 ≤ size) (h : Filled rules size source bs)
    (h' : Filled rules size source bs') : bs = bs' := by
  -- the batches that are equal already pile up in `front`
  suffices hrest : ∀ front, Filled rules size source (front ++ bs) →
      Filled rules size source (front ++ bs') → bs = bs' from hrest [] h h'
  clear h h'
  induction bs generalizing bs' with
  | nil =>
    intro front h h'
    cases bs' with
    | nil => rfl
    | cons y bs' =>
      rw [List.append_nil] at h
      exact (h.no_more hsize h').elim
  | cons x bs ih =>
    intro front h h'
    cases bs' with
    | nil =>
      rw [List.append_nil] at h'
      exact (h'.no_more hsize h).elim
    | cons y bs' =>
      obtain rfl := h.head_eq h'
      rw [List.append_cons] at h h'
      rw [ih (front ++ [x]) h h']

/-! ### Empty texts -/

/-- The text is empty to the parser. -/
def emptyText : Error := .invalidInput "empty DDL text"

theorem ne_emptyText_of_unfinished {s : Scanner} {e : Error} (h : s.unfinished? = some e) :
    e ≠ emptyText := by
  rintro rfl
  cases hregion : s.region <;> simp [unfinished?, hregion, emptyText] at h

theorem parseScript_eq_empty_iff (dialect : Dialect) {text : List Char} :
    parseScript dialect text = .error emptyText ↔ ∀ d ∈ text, isBlank d = true := by
  cases hempty : (trim text).isEmpty with
  | true =>
    refine ⟨fun _ d hd => ?_, fun _ => ?_⟩
    · rw [← Bool.not_eq_false]
      intro hnot
      rw [isEmpty_trim_eq_false.2 ⟨d, hd, hnot⟩] at hempty
      contradiction
    · unfold parseScript
      rw [hempty]
      rfl
  | false =>
    obtain ⟨d, hd, hnot⟩ := isEmpty_trim_eq_false.1 hempty
    refine ⟨fun h => ?_, fun hall => absurd (hall d hd) (by rw [hnot]; decide)⟩
    cases hunfinished : (after dialect.rules text).unfinished? with
    | some e =>
      rw [parseScript_of_error hempty (split_of_unfinished hunfinished)] at h
      exact absurd (Except.error.inj h) (ne_emptyText_of_unfinished hunfinished)
    | none =>
      rw [parseScript_of_ok hempty (split_of_finished hunfinished)] at h
      obtain ⟨offset, message, he⟩ := Grammar.exists_of_define_eq_error h
      exact absurd he (by simp [emptyText])

/-- A batch with this text is rejected as empty. -/
theorem run_eq_empty_iff (dialect : Dialect) {text : List Char} :
    Attempt.run dialect (encode text) [] = (.failed emptyText, []) ↔
      ∀ d ∈ text, isBlank d = true := by
  rw [Attempt.run, Attempt.text, Utf8.decode_encode, ← parseScript_eq_empty_iff dialect]
  dsimp only
  cases parseScript dialect text <;> simp [Attempt.ofResult]

/-- The batch that the end of input cuts. -/
theorem mem_batches_close {x : Batch} : x ∈ batches b.close.1 ↔
    b.scanner.unfinished? = none ∧ (b.complete || b.scanner.content) = true ∧ x = b.batch := by
  cases hunfinished : b.scanner.unfinished? with
  | some e =>
    have hfinish : b.finish = .error e := by
      rw [Batcher.finish, Scanner.finish, hunfinished]
      rfl
    rw [close, hfinish]
    simp [batches]
  | none =>
    have hfinish : b.finish =
        .ok (if b.complete || b.scanner.content then some b.batch else none) := by
      rw [Batcher.finish, Scanner.finish, hunfinished, ← content_endWord]
      rfl
    rw [close, hfinish]
    cases b.complete || b.scanner.content <;> simp [batches]

/-- **A batch is rejected as empty** if and only if what is left behind the full batches is white space
of which some is not plain. -/
theorem exists_empty_iff {dialect : Dialect} {script : List Char} (hsize : 1 ≤ size)
    {policy : RetryPolicy} {reads : List Read}
    (h : Delivers policy.maxRetries 0 reads (encode script)) :
    (∃ b ∈ batches ((init dialect.rules size).run policy 0 reads).1,
        Attempt.run dialect b.data [] = (.failed emptyText, [])) ↔
      ∃ bs tail, Filled dialect.rules size (encode script) bs ∧
        bs.flatMap (·.data) ++ encode tail = encode script ∧
        (∀ d ∈ tail, isBlank d = true) ∧ ∃ d ∈ tail, d ∉ plainBlanks := by
  obtain ⟨done, t, hscript, hparted⟩ := exists_parted dialect.rules size script
  have hfilled := (divided_feedAll hsize dialect.rules (encode script)).filled
  rw [(run_of_delivers h (init dialect.rules size)).1]
  generalize (init dialect.rules size).feedAll [] (encode script) = out at hparted hfilled ⊢
  obtain ⟨b, bs⟩ := out
  dsimp only at hparted hfilled ⊢
  have hwhole : bs.reverse.flatMap (·.data) ++ encode t = encode script := by
    rw [hparted.whole, ← encode_append, hscript]
  constructor
  · rintro ⟨x, hx, hempty⟩
    rcases List.mem_append.1 hx with hx | hx
    · obtain ⟨text, htext, d, hd, hnot⟩ := hparted.visible x (List.mem_reverse.1 hx)
      rw [htext, run_eq_empty_iff] at hempty
      rw [hempty d hd] at hnot
      contradiction
    · obtain ⟨-, hleft, rfl⟩ := mem_batches_close.1 hx
      rw [batch, hparted.current, run_eq_empty_iff] at hempty
      refine ⟨bs.reverse, t, hfilled, hwhole, hempty, ?_⟩
      rw [← (blanked_append hparted.begins hempty).2, ← hparted.scanner]
      refine (Bool.or_eq_true_iff.1 hleft).resolve_left fun hcomplete => ?_
      obtain ⟨d, hd, hnot⟩ := hparted.busy hcomplete
      rw [hempty d hd] at hnot
      contradiction
  · rintro ⟨bs', tail, hfilled', hwhole', hblank, hplain⟩
    obtain rfl := hfilled'.unique hsize hfilled
    obtain rfl : tail = t := by
      have hdecode := congrArg Utf8.decode (List.append_cancel_left (hwhole'.trans hwhole.symm))
      rw [Utf8.decode_encode, Utf8.decode_encode] at hdecode
      exact Except.ok.inj hdecode
    obtain ⟨hblanked, hcontent⟩ := blanked_append hparted.begins hblank
    rw [← hparted.scanner] at hblanked hcontent
    refine ⟨b.batch, List.mem_append_right _ (mem_batches_close.2 ⟨?_, ?_, rfl⟩), ?_⟩
    · rw [unfinished?, hblanked.region]
    · rw [hcontent.2 hplain, Bool.or_true]
    · rw [batch, hparted.current, run_eq_empty_iff]
      exact hblank

/-- A no-break space behind the last statement. -/
theorem exists_empty_iff_no_break_space :
    ∃ b ∈ batches ((init Dialect.postgres.rules 1).run {} 0
        [.data (encode ['a', ';', '\u00a0'])]).1,
      Attempt.run .postgres b.data [] = (.failed emptyText, []) := by
  have h : Delivers 0 0 [.data (encode ['a', ';', '\u00a0'])] (encode ['a', ';', '\u00a0'] ++ []) :=
    .data (by decide) (.exhausted 0)
  have hiff := @exists_empty_iff 1 .postgres ['a', ';', '\u00a0'] (le_refl 1) {} _ h
  exact hiff.2 ⟨_, ['\u00a0'], (divided_feedAll (le_refl 1) _ _).filled, by decide, by decide,
    '\u00a0', by decide, by decide⟩

end Batcher

end DdlBridge
