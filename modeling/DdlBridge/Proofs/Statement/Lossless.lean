import DdlBridge.Proofs.Statement.Lexing
import DdlBridge.Proofs.Statement.TerminatorText

/-!
# Splitting loses no text

A script falls into pieces where its scan ends statements (`Pieces`), and a piece is its statement
with white space around it and a terminator behind it (`fate_ofPiece?`). So the statements leave out
nothing else, a last piece without content apart (`split_conserves`).
-/

namespace DdlBridge.Statement

open Scanner Text

variable {rules : LexicalRules}

/-! ### What a piece loses -/

/-- Behind `front` come white space with one `;` at most, and then one last line at most that reads as
a terminator. -/
inductive Trails (rules : LexicalRules) (front : List Char) : List Char → Prop where
  | intro {gap line tail : List Char} (hgap : ∀ c ∈ gap, isBlank c = true ∨ c = ';')
      (honce : gap.count ';' ≤ 1)
      (hline : line = [] ∨ LoneTerminator rules line ∧ '\n' ∉ line ∧ StartsLine (front ++ gap))
      (htail : ∀ c ∈ tail, isBlank c = true) : Trails rules front (gap ++ line ++ tail)

/-- What becomes of a piece that starts at byte `start`. -/
inductive Fate (rules : LexicalRules) (start : Nat) (raw : List Char) : Option Statement → Prop where
  | kept {s : Statement} {lead trail : List Char} (hraw : raw = lead ++ s.text ++ trail)
      (hlead : ∀ c ∈ lead, isBlank c = true) (hoffset : s.offset = start + width lead)
      (htext : s.text ≠ []) (htrim : trim s.text = s.text)
      (htrail : Trails rules (lead ++ s.text) trail) : Fate rules start raw (some s)
  | dropped (htrail : Trails rules [] raw) : Fate rules start raw none

theorem exists_blanks_trimEnd (cs : List Char) :
    ∃ w, (∀ c ∈ w, isBlank c = true) ∧ cs = trimEnd cs ++ w := by
  refine ⟨(cs.reverse.takeWhile isBlank).reverse,
    fun c hc => List.mem_takeWhile_imp (List.mem_reverse.1 hc), ?_⟩
  rw [trimEnd, ← List.reverse_append, List.takeWhile_append_dropWhile, List.reverse_reverse]

theorem count_semicolon_of_blank {w : List Char} (hw : ∀ c ∈ w, isBlank c = true) :
    w.count ';' = 0 :=
  List.count_eq_zero.2 fun hmem => absurd (hw ';' hmem) (by decide)

/-- A text without a last line that reads as a terminator. -/
def withoutLine (rules : LexicalRules) (body : List Char) : List Char :=
  if LoneTerminator rules (lastLine body).2 then trimEnd (lastLine body).1 else body

/-- A text without a `;` at its end. -/
def withoutSemicolon (body : List Char) : List Char :=
  if body.getLast? = some ';' then trimEnd body.dropLast else body

theorem stripTerminator_eq (rules : LexicalRules) (raw : List Char) :
    stripTerminator rules raw = withoutSemicolon (withoutLine rules (trimEnd raw)) := rfl

theorem exists_withoutLine (rules : LexicalRules) (body : List Char) : ∃ w line,
    body = withoutLine rules body ++ w ++ line ∧ (∀ c ∈ w, isBlank c = true) ∧
      (line = [] ∨ LoneTerminator rules line ∧ '\n' ∉ line ∧
        StartsLine (withoutLine rules body ++ w)) := by
  by_cases hlone : LoneTerminator rules (lastLine body).2
  · obtain ⟨u, v, rfl, hu, hv⟩ := exists_startsLine body
    rw [withoutLine, if_pos hlone]
    rw [lastLine_eq hu hv] at hlone ⊢
    obtain ⟨w, hw, hfront⟩ := exists_blanks_trimEnd u.dropLast
    rcases hu with rfl | hlast
    · exact ⟨[], v, rfl, by simp, .inr ⟨hlone, hv, .inl rfl⟩⟩
    · have hu : u = trimEnd u.dropLast ++ (w ++ ['\n']) := by
        rw [← List.append_assoc, ← hfront]
        obtain ⟨front, rfl⟩ := List.getLast?_eq_some_iff.1 hlast
        rw [List.dropLast_concat]
      refine ⟨w ++ ['\n'], v, by rw [← hu], fun c hc => ?_, .inr ⟨hlone, hv, .inr ?_⟩⟩
      · rcases List.mem_append.1 hc with hc | hc
        · exact hw c hc
        · rw [List.mem_singleton.1 hc]
          decide
      · rwa [← hu]
  · rw [withoutLine, if_neg hlone]
    exact ⟨[], [], by simp, by simp, .inl rfl⟩

theorem exists_withoutSemicolon (body : List Char) : ∃ gap,
    body = withoutSemicolon body ++ gap ∧ (∀ c ∈ gap, isBlank c = true ∨ c = ';') ∧
      gap.count ';' ≤ 1 := by
  by_cases hlast : body.getLast? = some ';'
  · obtain ⟨front, rfl⟩ := List.getLast?_eq_some_iff.1 hlast
    obtain ⟨w, hw, hfront⟩ := exists_blanks_trimEnd front
    rw [withoutSemicolon, if_pos hlast, List.dropLast_concat]
    refine ⟨w ++ [';'], by rw [← List.append_assoc, ← hfront], fun c hc => ?_, ?_⟩
    · rcases List.mem_append.1 hc with hc | hc
      · exact .inl (hw c hc)
      · exact .inr (List.mem_singleton.1 hc)
    · rw [List.count_append, count_semicolon_of_blank hw]
      decide
  · rw [withoutSemicolon, if_neg hlast]
    exact ⟨[], (List.append_nil body).symm, by simp, by simp⟩

/-- What a piece loses at its end. -/
theorem exists_trails (rules : LexicalRules) (raw : List Char) : ∃ trail,
    raw = stripTerminator rules raw ++ trail ∧ Trails rules (stripTerminator rules raw) trail := by
  obtain ⟨tail, htail, hraw⟩ := exists_blanks_trimEnd raw
  obtain ⟨w, line, hbody, hw, hline⟩ := exists_withoutLine rules (trimEnd raw)
  obtain ⟨gap, hrest, hgap, honce⟩ := exists_withoutSemicolon (withoutLine rules (trimEnd raw))
  rw [stripTerminator_eq]
  refine ⟨gap ++ w ++ line ++ tail, ?_, .intro (fun c hc => ?_) ?_ ?_ htail⟩
  · calc raw = trimEnd raw ++ tail := hraw
      _ = withoutLine rules (trimEnd raw) ++ w ++ line ++ tail := by rw [← hbody]
      _ = withoutSemicolon (withoutLine rules (trimEnd raw)) ++ gap ++ w ++ line ++ tail := by
        rw [← hrest]
      _ = _ := by simp only [List.append_assoc]
  · rcases List.mem_append.1 hc with hc | hc
    · exact hgap c hc
    · exact .inl (hw c hc)
  · rw [List.count_append, count_semicolon_of_blank hw]
    exact honce
  · rwa [← List.append_assoc, ← hrest]

/-- Where no text is left, all of the piece is lost. -/
theorem Trails.of_blank {front trail : List Char} (h : Trails rules front trail)
    (hfront : ∀ c ∈ front, isBlank c = true) : Trails rules [] (front ++ trail) := by
  cases h with
  | @intro gap line tail hgap honce hline htail =>
    rw [← List.append_assoc, ← List.append_assoc]
    refine .intro (fun c hc => ?_) ?_ hline htail
    · rcases List.mem_append.1 hc with hc | hc
      · exact .inl (hfront c hc)
      · exact hgap c hc
    · rwa [List.count_append, count_semicolon_of_blank hfront, Nat.zero_add]

theorem trim_trimStart_stripTerminator (rules : LexicalRules) (raw : List Char) :
    trim (trimStart (stripTerminator rules raw)) = trimStart (stripTerminator rules raw) := by
  have hstart : trimStart (trimStart (stripTerminator rules raw)) =
      trimStart (stripTerminator rules raw) := List.dropWhile_idempotent ..
  rw [trim, hstart, ← trimStart_trimEnd_comm, trimEnd_stripTerminator]

theorem fate_ofPiece? (rules : LexicalRules) (start : Nat) (raw : List Char) :
    Fate rules start raw (ofPiece? rules start raw) := by
  obtain ⟨trail, hraw, htrail⟩ := exists_trails rules raw
  obtain ⟨lead, hlead, hbody⟩ := exists_blanks (stripTerminator rules raw)
  unfold ofPiece?
  dsimp only
  split
  case isTrue hempty =>
    rw [List.isEmpty_iff.1 hempty, List.append_nil] at hbody
    rw [hbody] at hraw htrail
    rw [hraw]
    exact .dropped (htrail.of_blank hlead)
  case isFalse hne =>
    have hwidth := congrArg width hbody
    rw [width_append] at hwidth
    have hparts : raw = lead ++ trimStart (stripTerminator rules raw) ++ trail := by
      rwa [← hbody]
    refine .kept hparts hlead ?_ ?_ ?_ ?_
    · dsimp only
      omega
    · exact fun hnil => hne (List.isEmpty_iff.2 hnil)
    · exact trim_trimStart_stripTerminator rules raw
    · rwa [← hbody]

/-! ### Pieces -/

/-- A text cut into pieces, with the places where they end and their statements. -/
inductive Pieces (rules : LexicalRules) : List Char → List Nat → List Statement → Prop where
  | nil : Pieces rules [] [] []
  | snoc {cs raw : List Char} {ends : List Nat} {statements : List Statement} {s? : Option Statement}
      (hbefore : Pieces rules cs ends statements) (hfate : Fate rules (width cs) raw s?) :
      Pieces rules (cs ++ raw) (ends ++ [width (cs ++ raw)]) (statements ++ s?.toList)

/-- A statement is where its offset says. -/
def Occurs (s : Statement) (cs : List Char) : Prop :=
  ∃ front back, cs = front ++ (s.text ++ back) ∧ s.offset = width front

theorem Occurs.slice_eq {s : Statement} {cs : List Char} (h : Occurs s cs) :
    slice s.offset (s.offset + width s.text) cs = s.text := by
  obtain ⟨front, back, rfl, hoffset⟩ := h
  rw [hoffset, slice_width_append]

theorem Occurs.append {s : Statement} {cs : List Char} (h : Occurs s cs) (more : List Char) :
    Occurs s (cs ++ more) := by
  obtain ⟨front, back, rfl, hoffset⟩ := h
  exact ⟨front, back ++ more, by simp, hoffset⟩

theorem Occurs.stop_le {s : Statement} {cs : List Char} (h : Occurs s cs) :
    s.offset + width s.text ≤ width cs := by
  obtain ⟨front, back, rfl, hoffset⟩ := h
  simp only [width_append]
  omega

/-- Where the scan of a text ends statements. -/
def scanEnds (rules : LexicalRules) (cs : List Char) : List Nat :=
  (scan rules (encode cs)).boundaries.reverse.map (·.index + 1)

theorem scanner_scan_encode (rules : LexicalRules) (cs : List Char) :
    (scan rules (encode cs)).scanner = after rules cs := by
  rw [(scanner_scan rules (encode cs)).1, after_eq_feedText]
  rfl

theorem scanEnds_of_not_cut {cs : List Char} {c : Char} (hcut : cutsAt rules cs c = false) :
    scanEnds rules (cs ++ [c]) = scanEnds rules cs := by
  have hflag : ((encode [c]).foldl feedByte ((scan rules (encode cs)).scanner, false)).2 = false := by
    rw [scanner_scan_encode, encode_cons, show encode [] = [] from rfl, List.append_nil]
    exact hcut
  rw [scanEnds, encode_append, boundaries_append_of_uncut hflag, scanEnds]

theorem feed_ofNat (s : Scanner) {c : Char} (hc : c.toNat < 128) :
    s.feed (UInt8.ofNat c.toNat) = feedChar s c := by
  rw [feedChar_of_lt s hc, Scanner.feed, ofNat_toNat_byte hc]

/-- A statement that ends had content, and its end is the next one that the scan reports. -/
theorem ends_of_cut {cs : List Char} {c : Char} (hcut : cutsAt rules cs c = true) :
    (after rules (cs ++ [c])).lastContent = true ∧
      scanEnds rules (cs ++ [c]) = scanEnds rules cs ++ [width (cs ++ [c])] := by
  have hc : c.toNat < 128 := by
    rcases feedChar_restarts (sound_after rules cs) hcut with ⟨rfl, -⟩ | ⟨rfl, -⟩ <;> decide
  have hbytes : encode [c] = [UInt8.ofNat c.toNat] := by
    rw [encode_cons, utf8EncodeChar_of_lt hc]
    rfl
  have hflag : ((scan rules (encode cs)).scanner.feed (UInt8.ofNat c.toNat)).2 = true := by
    rw [feed_ofNat _ hc, scanner_scan_encode]
    exact hcut
  refine ⟨?_, ?_⟩
  · have hkeeps := (content_of_scan rules (encode cs)).1.step c
    rw [scanner_scan_encode, ← feedChar_of_lt _ hc] at hkeeps
    rw [after_concat]
    exact hkeeps.2 hcut
  · have hwidth : width (cs ++ [c]) = (encode cs).length + 1 := by
      rw [← length_encode, encode_append, hbytes, List.length_append, List.length_singleton]
    rw [scanEnds, encode_append, hbytes, scan_concat, boundaries_step, if_pos hflag,
      (scanner_scan rules (encode cs)).2, hwidth]
    simp [scanEnds]

theorem reverse_toList {α : Type} (a? : Option α) : a?.toList.reverse = a?.toList := by
  cases a? <;> rfl

/-- The pieces of a text lie in front of the one that a splitter has in progress. -/
theorem pieces_splitter (rules : LexicalRules) (cs : List Char) : ∃ w,
    cs = w ++ (splitter rules cs).piece.reverse ∧ (splitter rules cs).start = width w ∧
      Pieces rules w (scanEnds rules cs) (splitter rules cs).found.reverse := by
  induction cs using List.reverseRecOn with
  | nil => exact ⟨[], rfl, rfl, .nil⟩
  | append_singleton cs c ih =>
    obtain ⟨w, hparts, hstart, hpieces⟩ := ih
    have hraw : cs ++ [c] = w ++ (c :: (splitter rules cs).piece).reverse := by
      rw [List.reverse_cons, ← List.append_assoc, ← hparts]
    cases hcut : cutsAt rules cs c with
    | false =>
      rw [splitter_of_not_cut hcut, scanEnds_of_not_cut hcut]
      exact ⟨w, hraw, hstart, hpieces⟩
    | true =>
      obtain ⟨hlast, hends⟩ := ends_of_cut hcut
      refine ⟨cs ++ [c], ?_, ?_, ?_⟩
      · rw [splitter_of_cut hcut]
        exact (List.append_nil _).symm
      · rw [splitter_of_cut hcut]
      · have hnext := hpieces.snoc
          (fate_ofPiece? rules (width w) (c :: (splitter rules cs).piece).reverse)
        rw [splitter_of_cut hcut, hends, hlast, statement?_splitter, if_pos rfl, hstart,
          List.reverse_append, reverse_toList]
        rwa [← hraw] at hnext

/-! ### Statements -/

theorem Fate.occurs {cs raw : List Char} {s : Statement} (h : Fate rules (width cs) raw (some s)) :
    Occurs s (cs ++ raw) ∧ width cs ≤ s.offset := by
  cases h with
  | @kept s lead trail hraw hlead hoffset =>
    refine ⟨⟨cs ++ lead, trail, ?_, ?_⟩, ?_⟩
    · rw [hraw]
      simp only [List.append_assoc]
    · rw [hoffset, width_append]
    · omega

/-- A text that holds more than white space, and none at its ends. -/
def Trimmed (cs : List Char) : Prop := cs ≠ [] ∧ trim cs = cs

theorem Fate.trimmed {start : Nat} {raw : List Char} {s : Statement}
    (h : Fate rules start raw (some s)) : Trimmed s.text := by
  cases h with
  | kept hraw hlead hoffset htext htrim => exact ⟨htext, htrim⟩

/-- Statements that are parts of a text, one behind the other. -/
structure InPlace (cs : List Char) (statements : List Statement) : Prop where
  occurs : ∀ s ∈ statements, Occurs s cs
  trimmed : ∀ s ∈ statements, Trimmed s.text
  ordered : statements.Pairwise fun a b => a.offset + width a.text ≤ b.offset

variable {cs raw : List Char} {statements : List Statement}

theorem InPlace.append (h : InPlace cs statements) (more : List Char) :
    InPlace (cs ++ more) statements :=
  ⟨fun s hs => (h.occurs s hs).append more, h.trimmed, h.ordered⟩

/-- One piece more. -/
theorem InPlace.snoc {s? : Option Statement} (h : InPlace cs statements)
    (hfate : Fate rules (width cs) raw s?) : InPlace (cs ++ raw) (statements ++ s?.toList) := by
  cases s? with
  | none =>
    rw [Option.toList_none, List.append_nil]
    exact h.append raw
  | some s =>
    obtain ⟨hoccurs, hstart⟩ := hfate.occurs
    refine ⟨fun t ht => ?_, fun t ht => ?_, ?_⟩
    · rcases List.mem_append.1 ht with ht | ht
      · exact (h.occurs t ht).append raw
      · rwa [List.mem_singleton.1 ht]
    · rcases List.mem_append.1 ht with ht | ht
      · exact h.trimmed t ht
      · rw [List.mem_singleton.1 ht]
        exact hfate.trimmed
    · refine List.pairwise_append.2 ⟨h.ordered, List.pairwise_singleton .., fun t ht u hu => ?_⟩
      rw [List.mem_singleton.1 hu]
      exact (h.occurs t ht).stop_le.trans hstart

theorem Pieces.inPlace {ends : List Nat} (h : Pieces rules cs ends statements) :
    InPlace cs statements := by
  induction h with
  | nil => exact ⟨by simp, by simp, .nil⟩
  | snoc _ hfate ih => exact ih.snoc hfate

/-- Each statement end closes a piece, and the text behind the last one is a piece if it has
content. -/
theorem pieces_of_split {script : List Char} (h : split rules script = .ok statements) :
    ∃ cs raw before s?, script = cs ++ raw ∧ Pieces rules cs (scanEnds rules script) before ∧
      statements = before ++ s?.toList ∧
      (Fate rules (width cs) raw s? ∨
        s? = none ∧ (scan rules (encode script)).scanner.content = false) := by
  obtain ⟨cs, hscript, hstart, hpieces⟩ := pieces_splitter rules script
  have hlast := split_of_ok h
  rw [statement?_splitter, hstart, ← scanner_scan_encode] at hlast
  generalize (splitter rules script).piece.reverse = raw at hscript hlast
  refine ⟨cs, raw, _, _, hscript, hpieces, hlast, ?_⟩
  split
  case isTrue => exact .inl (fate_ofPiece? ..)
  case isFalse hcontent => exact .inr ⟨rfl, Bool.eq_false_iff.2 hcontent⟩

theorem inPlace_of_split {script : List Char} (h : split rules script = .ok statements) :
    InPlace script statements := by
  obtain ⟨cs, raw, before, s?, rfl, hbefore, rfl, hfate⟩ := pieces_of_split h
  rcases hfate with hfate | ⟨rfl, -⟩
  · exact hbefore.inPlace.snoc hfate
  · rw [Option.toList_none, List.append_nil]
    exact hbefore.inPlace.append raw

/-- **Splitting a script loses nothing but terminators and white space**, and what stands behind the
last statement end where the scan finds no content there. -/
theorem split_conserves {script : List Char} (h : split rules script = .ok statements) :
    (∃ cs raw before s?, script = cs ++ raw ∧ Pieces rules cs (scanEnds rules script) before ∧
      statements = before ++ s?.toList ∧
      (Fate rules (width cs) raw s? ∨
        s? = none ∧ (scan rules (encode script)).scanner.content = false)) ∧
    (∀ s ∈ statements, slice s.offset (s.offset + width s.text) script = s.text ∧ Trimmed s.text) ∧
    statements.Pairwise fun a b => a.offset + width a.text ≤ b.offset := by
  have hplace := inPlace_of_split h
  exact ⟨pieces_of_split h, fun s hs => ⟨(hplace.occurs s hs).slice_eq, hplace.trimmed s hs⟩,
    hplace.ordered⟩

/-- A script with a `;`, a batch separator and a comment at its end. -/
theorem split_conserves_batches :
    split Dialect.sqlServer.rules "a ;\n\nb\nGO\n-- c".toList =
        .ok [⟨0, "a".toList⟩, ⟨5, "b".toList⟩] ∧
      scanEnds Dialect.sqlServer.rules "a ;\n\nb\nGO\n-- c".toList = [3, 10] ∧
      ∃ cs raw before s?, "a ;\n\nb\nGO\n-- c".toList = cs ++ raw ∧
        Pieces Dialect.sqlServer.rules cs
          (scanEnds Dialect.sqlServer.rules "a ;\n\nb\nGO\n-- c".toList) before ∧
        [⟨0, "a".toList⟩, ⟨5, "b".toList⟩] = before ++ s?.toList ∧
        (Fate Dialect.sqlServer.rules (width cs) raw s? ∨ s? = none ∧
          (scan Dialect.sqlServer.rules
            (encode "a ;\n\nb\nGO\n-- c".toList)).scanner.content = false) :=
  ⟨by decide +kernel, by decide +kernel, (split_conserves (by decide +kernel)).1⟩

end DdlBridge.Statement
