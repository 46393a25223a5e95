import DdlBridge.Proofs.Statement.Piece

/-!
# Texts inside a statement

A text that ends no statement and leaves no quote open may stand in parentheses in a statement whose
other characters are plain: the statement and its `;` are split as one (`split_of_unbroken`).
-/

namespace DdlBridge.Scanner

/-! ### Plain characters -/

/-- The characters at which a quote or a block comment may start. -/
def marks : List Char := ['\x27', '\x22', '\x60', '*', '$']

/-- A character that opens and closes nothing. -/
def Plain (rules : LexicalRules) (c : Char) : Prop :=
  c ∉ marks ∧ (rules.bracketQuotes = true → c ≠ '[' ∧ c ≠ ']')

instance (rules : LexicalRules) (c : Char) : Decidable (Plain rules c) :=
  inferInstanceAs (Decidable (_ ∧ _))

/-- The scanner is outside every quote and block comment. -/
def Outside (s : Scanner) : Prop :=
  s.region = .normal ∨ s.region = .dash ∨ s.region = .slash ∨ s.region = .lineComment ∨
    ∃ tag, s.region = .dollarTag tag

theorem Outside.unfinished? {s : Scanner} (h : s.Outside) : s.unfinished? = none := by
  rw [Scanner.unfinished?]
  rcases h with h | h | h | h | ⟨tag, h⟩ <;> rw [h]

theorem outside_stepSymbol {s : Scanner} (hregion : s.region = .normal) {c : Char}
    (hc : Plain s.rules c) : (s.stepSymbol c).1.Outside := by
  obtain ⟨hmarks, hbracket⟩ := hc
  simp only [marks, List.mem_cons, List.not_mem_nil, or_false, not_or] at hmarks
  unfold stepSymbol
  split
  case h_1 => exact .inl (s.region_endLine.trans hregion)
  case h_6 => exact .inl ((region_terminator _).trans hregion)
  case h_7 => exact .inr (.inl rfl)
  case h_8 => exact .inr (.inr (.inl rfl))
  case h_9 => exact absurd rfl hmarks.1
  case h_10 => exact absurd rfl hmarks.2.1
  case h_11 => exact absurd rfl hmarks.2.2.1
  case h_12 =>
    dsimp only
    split
    case isTrue h => exact absurd rfl (hbracket h).1
    case isFalse => exact .inl hregion
  case h_13 =>
    dsimp only
    split
    · exact .inr (.inr (.inr (.inl rfl)))
    · exact .inl hregion
  case h_14 => exact absurd rfl hmarks.2.2.2.2
  all_goals exact .inl hregion

theorem outside_stepNormal {s : Scanner} (hregion : s.region = .normal) {c : Char}
    (hc : Plain s.rules c) : (s.stepNormal c).1.Outside := by
  unfold stepNormal
  split
  · exact .inl hregion
  · exact outside_stepSymbol ((region_endWord s).trans hregion) (by rwa [rules_endWord])

/-- A plain character keeps a scanner outside, and takes it out of a quote that has ended. -/
theorem outside_step {s : Scanner} {c : Char} (hc : Plain s.rules c)
    (h : s.Outside ∨ ∃ closing, s.region = .quoteEnd closing ∧ c ≠ closing) :
    (s.step c).1.Outside := by
  have hmarks := hc.1
  simp only [marks, List.mem_cons, List.not_mem_nil, or_false, not_or] at hmarks
  rcases h with (hr | hr | hr | hr | ⟨tag, hr⟩) | ⟨closing, hr, hclosing⟩
  · simp only [step, hr]
    exact outside_stepNormal hr hc
  · simp only [step, hr]
    split
    · exact .inr (.inr (.inr (.inl rfl)))
    · exact outside_stepNormal rfl hc
  · simp only [step, hr, if_neg hmarks.2.2.2.1]
    exact outside_stepNormal rfl hc
  · simp only [step, hr]
    split
    · exact .inl (region_endLine _)
    · exact .inr (.inr (.inr (.inl hr)))
  · simp only [step, hr, if_neg hmarks.2.2.2.2]
    split
    · exact .inr (.inr (.inr (.inr ⟨_, rfl⟩)))
    · exact outside_stepNormal rfl hc
  · simp only [step, hr, if_neg hclosing]
    exact outside_stepNormal rfl hc

/-! ### Quotes -/

/-- A scanner in a quote waits for a character that ends one. -/
def Enclosing (s : Scanner) : Prop :=
  ∀ closing, Quotes closing s.region → closing ∈ ['\x27', '\x22', '\x60', ']']

theorem Enclosing.of_outside {s : Scanner} (h : s.Outside) : s.Enclosing := by
  intro closing hquotes
  rcases h with h | h | h | h | ⟨tag, h⟩ <;> rw [h] at hquotes <;>
    exact absurd hquotes (by simp [Quotes])

theorem Enclosing.of_quote {s : Scanner} {closing : Char} (h : s.region = .quote closing)
    (hclosing : closing ∈ ['\x27', '\x22', '\x60', ']']) : s.Enclosing := by
  intro other hquotes
  rw [h] at hquotes
  simp only [Quotes, Region.quote.injEq, reduceCtorEq, or_false] at hquotes
  exact hquotes ▸ hclosing

theorem enclosing_stepSymbol {s : Scanner} (hregion : s.region = .normal) (c : Char) :
    (s.stepSymbol c).1.Enclosing := by
  have hnormal : ∀ t : Scanner, t.region = .normal → t.Enclosing := fun t ht => .of_outside (.inl ht)
  unfold stepSymbol
  split
  case h_1 => exact hnormal _ (s.region_endLine.trans hregion)
  case h_6 => exact hnormal _ ((region_terminator _).trans hregion)
  case h_7 => exact .of_outside (.inr (.inl rfl))
  case h_8 => exact .of_outside (.inr (.inr (.inl rfl)))
  case h_9 | h_10 => exact .of_quote rfl (by decide)
  case h_11 | h_12 =>
    dsimp only
    split
    · exact .of_quote rfl (by decide)
    · exact hnormal _ hregion
  case h_13 =>
    dsimp only
    split
    · exact .of_outside (.inr (.inr (.inr (.inl rfl))))
    · exact hnormal _ hregion
  case h_14 =>
    split
    · exact .of_outside (.inr (.inr (.inr (.inr ⟨_, rfl⟩))))
    · exact hnormal _ hregion
  all_goals exact hnormal _ hregion

theorem Enclosing.step {s : Scanner} (h : s.Enclosing) (c : Char) : (s.step c).1.Enclosing := by
  cases step_cases s c with
  | outside content previous hcontent hstep =>
    rw [hstep]
    unfold stepNormal
    split
    · exact .of_outside (.inl rfl)
    · exact enclosing_stepSymbol (region_endWord _) c
  | lineComment hregion hc hstep =>
    rw [hstep]
    exact .of_outside (.inl (region_endLine _))
  | inside region line lineQuoted hregion hdash hslash hquotes hescape hstep =>
    rw [hstep]
    exact fun closing hclosing => h closing (hquotes closing hclosing)

end DdlBridge.Scanner

namespace DdlBridge.Statement

open Scanner Text

variable {rules : LexicalRules}

/-! ### Plain texts -/

theorem plain_of_le {c : Char} (h : 128 ≤ c.toNat) : Plain rules c := by
  refine ⟨fun hmem => ?_, fun _ => ⟨ne_of_le_toNat h (by decide), ne_of_le_toNat h (by decide)⟩⟩
  have hall : ∀ d ∈ marks, d.toNat < 128 := by decide
  have hlt := hall c hmem
  omega

/-- What every byte keeps is kept by a character. -/
theorem feedChar_keeps {I : Scanner → Prop} {c : Char}
    (hlow : c.toNat < 128 → ∀ t, I t → I (t.step c).1)
    (hhigh : ∀ ch : Char, 128 ≤ ch.toNat → ∀ t, I t → I (t.step ch).1) {s : Scanner} (h : I s) :
    I (feedChar s c).1 := by
  rcases Nat.lt_or_ge c.toNat 128 with hc | hc
  · rw [feedChar_of_lt s hc]
    exact hlow hc s h
  · have hfold : ∀ bytes : List UInt8, (∀ b ∈ bytes, 128 ≤ b.toNat) → ∀ t cut, I t →
        I (bytes.foldl feedByte (t, cut)).1 := by
      intro bytes
      induction bytes with
      | nil => exact fun _ _ _ ht => ht
      | cons b bytes ih =>
        intro hbytes t cut ht
        have hb := le_toNat_ofNat_byte (hbytes b List.mem_cons_self)
        exact ih (fun b' hb' => hbytes b' (List.mem_cons_of_mem _ hb')) _ _ (hhigh _ hb t ht)
    exact hfold _ (fun b hb => le_of_mem_utf8EncodeChar hc hb) s false h

theorem enclosing_after (rules : LexicalRules) (cs : List Char) : (after rules cs).Enclosing := by
  induction cs using List.reverseRecOn with
  | nil => exact .of_outside (.inl rfl)
  | append_singleton cs c ih =>
    rw [after_concat]
    exact feedChar_keeps (fun _ t ht => ht.step c) (fun ch _ t ht => ht.step ch) ih

theorem outside_feedChar {s : Scanner} (h : s.Outside) {c : Char} (hc : Plain s.rules c) :
    (feedChar s c).1.Outside := by
  have hkeeps : (feedChar s c).1.rules = s.rules ∧ (feedChar s c).1.Outside := by
    refine feedChar_keeps (I := fun t => t.rules = s.rules ∧ t.Outside) (fun _ t ht => ?_)
      (fun ch hch t ht => ?_) ⟨rfl, h⟩
    · exact ⟨(rules_step t c).trans ht.1, outside_step (by rwa [ht.1]) (.inl ht.2)⟩
    · exact ⟨(rules_step t ch).trans ht.1, outside_step (plain_of_le hch) (.inl ht.2)⟩
  exact hkeeps.2

theorem outside_after {front cs : List Char} (h : (after rules front).Outside)
    (hcs : ∀ c ∈ cs, Plain rules c) : (after rules (front ++ cs)).Outside := by
  induction cs using List.reverseRecOn with
  | nil => rwa [List.append_nil]
  | append_singleton cs c ih =>
    rw [← List.append_assoc, after_concat]
    refine outside_feedChar (ih fun d hd => hcs d (List.mem_append_left _ hd)) ?_
    rw [rules_after]
    exact hcs c (by simp)

/-- Only `;` and line ends cut. -/
theorem eq_or_eq_of_cutsAt {c : Char} {cs : List Char} (hcut : cutsAt rules cs c = true) :
    c = ';' ∨ c = '\n' :=
  (feedChar_restarts (sound_after rules cs) hcut).imp And.left And.left

theorem not_cutsAt_of_ne {c : Char} (hsemicolon : c ≠ ';') (hnewline : c ≠ '\n') (cs : List Char) :
    cutsAt rules cs c = false := by
  rw [Bool.eq_false_iff]
  exact fun hcut => (eq_or_eq_of_cutsAt hcut).elim hsemicolon hnewline

/-! ### Texts that end no statement -/

/-- No statement and no line ends within the text. -/
def Inline (cs : List Char) : Prop := ∀ c ∈ cs, c ≠ ';' ∧ c ≠ '\n'

instance (cs : List Char) : Decidable (Inline cs) := inferInstanceAs (Decidable (∀ c ∈ cs, _))

theorem Inline.append {cs cs' : List Char} (h : Inline cs) (h' : Inline cs') : Inline (cs ++ cs') :=
  List.forall_mem_append.2 ⟨h, h'⟩

theorem CutFree.append_inline {front cs : List Char} (h : CutFree rules front) (hcs : Inline cs) :
    CutFree rules (front ++ cs) := by
  induction cs using List.reverseRecOn with
  | nil => rwa [List.append_nil]
  | append_singleton cs c ih =>
    obtain ⟨hrest, hc⟩ := List.forall_mem_append.1 hcs
    obtain ⟨hsemicolon, hnewline⟩ := hc c List.mem_cons_self
    rw [← List.append_assoc]
    exact cutFree_concat.2 ⟨ih hrest, not_cutsAt_of_ne hsemicolon hnewline _⟩

theorem Inline.cutFree {cs : List Char} (h : Inline cs) : CutFree rules cs :=
  (cutFree_nil rules).append_inline h

/-- Where a statement ends in a longer text, it ends at one of its further characters. -/
theorem exists_cut {u : List Char} (hfree : CutFree rules cs) (h : ¬ CutFree rules (cs ++ u)) :
    ∃ v c w, u = v ++ c :: w ∧ CutFree rules (cs ++ v) ∧ cutsAt rules (cs ++ v) c = true := by
  induction u using List.reverseRecOn with
  | nil => exact absurd hfree (by rwa [List.append_nil] at h)
  | append_singleton u c ih =>
    by_cases hu : CutFree rules (cs ++ u)
    · refine ⟨u, c, [], rfl, hu, ?_⟩
      rw [← Bool.not_eq_false]
      intro hcut
      rw [← List.append_assoc] at h
      exact h (cutFree_concat.2 ⟨hu, hcut⟩)
    · obtain ⟨v, e, w, rfl, hv, hcut⟩ := ih hu
      exact ⟨v, e, w ++ [c], by simp, hv, hcut⟩

theorem outside_semicolon {s : Scanner} (h : s.Outside) (hrules : s.rules = rules) :
    (feedChar s ';').1.Outside := by
  have hplain : Plain rules ';' := ⟨by decide, fun _ => by decide⟩
  exact outside_feedChar h (hrules ▸ hplain)

/-- A statement and its `;`, whether or not the scanner ends the statement there. -/
theorem split_of_outside {c : Char} {cs : List Char} (hblank : isBlank c = false)
    (hcontent : (after rules [c]).content = true) (hcutFree : CutFree rules (c :: cs))
    (houtside : (after rules (c :: cs)).Outside) :
    split rules (c :: cs ++ [';']) = .ok [⟨0, trimEnd (c :: cs)⟩] := by
  have hstatement : ofPiece? rules 0 (c :: cs ++ [';']) = some ⟨0, trimEnd (c :: cs)⟩ :=
    ofPiece?_semicolon rules 0 hblank
  -- a `;` that ends no statement, as in a routine, leaves it to the end of the script
  cases hcut : cutsAt rules (c :: cs) ';' with
  | true => exact split_of_cut hcutFree (content_of_cutFree_cons hcontent hcutFree) hcut hstatement
  | false =>
    have hall : CutFree rules (c :: cs ++ [';']) := cutFree_concat.2 ⟨hcutFree, hcut⟩
    have hfinished : (after rules (c :: cs ++ [';'])).unfinished? = none := by
      rw [after_concat]
      exact (outside_semicolon houtside (rules_after rules _)).unfinished?
    exact split_of_cutFree hall (content_of_cutFree_cons hcontent hall) hfinished hstatement

/-! ### Texts inside a statement -/

/-- Behind `lead` the text ends no statement and leaves nothing open. -/
structure Unbroken (rules : LexicalRules) (lead text : List Char) : Prop where
  cutFree : CutFree rules (lead ++ text)
  closed : (after rules (lead ++ text)).unfinished? = none

instance (rules : LexicalRules) (lead text : List Char) : Decidable (Unbroken rules lead text) :=
  decidable_of_iff (_ ∧ _) ⟨fun h => ⟨h.1, h.2⟩, fun h => ⟨h.cutFree, h.closed⟩⟩

/-- Where nothing is open, a character that no quote ends with leads outside. -/
theorem outside_of_unfinished {cs : List Char} (h : (after rules cs).unfinished? = none) {c : Char}
    (hlow : c.toNat < 128) (hc : Plain rules c) (hclosing : c ∉ ['\x27', '\x22', '\x60', ']']) :
    (after rules (cs ++ [c])).Outside := by
  rw [after_concat, feedChar_of_lt _ hlow]
  refine outside_step (by rwa [rules_after]) ?_
  rw [Scanner.unfinished?] at h
  cases hregion : (after rules cs).region with
  | normal => exact .inl (.inl hregion)
  | dash => exact .inl (.inr (.inl hregion))
  | slash => exact .inl (.inr (.inr (.inl hregion)))
  | lineComment => exact .inl (.inr (.inr (.inr (.inl hregion))))
  | dollarTag tag => exact .inl (.inr (.inr (.inr (.inr ⟨tag, hregion⟩))))
  | quoteEnd closing =>
    have hmem := enclosing_after rules cs closing (.inr (.inl hregion))
    exact .inr ⟨closing, rfl, fun heq => hclosing (heq ▸ hmem)⟩
  | quote | escape | blockComment | blockCommentStar | dollar =>
    rw [hregion] at h
    exact absurd h (by simp)

/-- The text stands in parentheses in a statement that is plain behind them. -/
theorem split_of_unbroken {c : Char} {lead text back : List Char} (hblank : isBlank c = false)
    (hcontent : (after rules [c]).content = true) (h : Unbroken rules (c :: lead) text)
    (hback : ∀ b ∈ back, Plain rules b) (hinline : Inline back) :
    split rules (c :: (lead ++ text ++ ')' :: back) ++ [';']) =
      .ok [⟨0, trimEnd (c :: (lead ++ text ++ ')' :: back))⟩] := by
  have hparen : Plain rules ')' := ⟨by decide, fun _ => by decide⟩
  have hparts : c :: (lead ++ text ++ ')' :: back) = (c :: lead ++ text) ++ [')'] ++ back := by simp
  have hclosed := outside_of_unfinished h.closed (by decide) hparen (by decide)
  refine split_of_outside hblank hcontent ?_ ?_
  · rw [hparts, List.append_assoc]
    exact h.cutFree.append_inline (Inline.append (show Inline [')'] by decide) hinline)
  · rw [hparts]
    exact outside_after hclosed hback

end DdlBridge.Statement
