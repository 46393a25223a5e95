import DdlBridge.Proofs.Statement.Unbroken

/-!
# The end of a statement

Where a text leaves nothing open, a `;` and a line end lead to the start of a line (`quiet_after`),
and there a `GO` line ends the statement if such lines do (`Quiet.not_cutFree_go`). Where it leaves
something open, nothing ends before what closes it (`Unclosed.append`).
-/

namespace DdlBridge.Statement

open Scanner Text

variable {rules : LexicalRules} {s : Scanner} {cs : List Char}

/-! ### Lines -/

theorem quiet_endLine (hregion : s.region = .normal) (hword : s.word = [])
    (huncut : s.endLine.2 = false) : Quiet s.endLine.1 := by
  unfold endLine at huncut ⊢
  split
  case isTrue hline =>
    rw [if_pos hline] at huncut
    exact absurd huncut (by simp)
  case isFalse => exact ⟨hregion, hword, rfl, rfl⟩

/-- A line end that ends no statement leads to the start of a line. -/
theorem quiet_step_newline (hsound : s.Sound) (h : s.Outside) (huncut : (s.step '\n').2 = false) :
    Quiet (s.step '\n').1 := by
  have hnormal : ∀ t : Scanner, t.region = .normal → (t.stepNormal '\n').2 = false →
      Quiet (t.stepNormal '\n').1 := by
    intro t ht huncut
    rw [stepNormal_newline] at huncut ⊢
    exact quiet_endLine ((region_endWord t).trans ht) (word_endWord t) huncut
  rcases h with hr | hr | hr | hr | ⟨tag, hr⟩ <;> simp only [step, hr] at huncut ⊢
  · exact hnormal _ hr huncut
  · exact hnormal _ rfl huncut
  · exact hnormal _ rfl huncut
  · exact quiet_endLine rfl (hsound.word (by simp [hr])) huncut
  · exact hnormal _ rfl huncut

theorem quiet_after (h : (after rules cs).Outside) (huncut : cutsAt rules cs '\n' = false) :
    Quiet (after rules (cs ++ ['\n'])) := by
  rw [cutsAt, feedChar_of_lt _ (by decide)] at huncut
  rw [after_concat, feedChar_of_lt _ (by decide)]
  exact quiet_step_newline (sound_after rules cs) h huncut

/-- At the start of a line `GO` and a line end are a line that ends the statement. -/
theorem Quiet.step_go (h : Quiet s) (hlines : s.rules.goLines = true) :
    (((s.step 'G').1.step 'O').1.step '\n').2 = true := by
  obtain ⟨hregion, -, hline, hquoted⟩ := h
  have hletter : ∀ t : Scanner, t.region = .normal → ∀ c ∈ ['G', 'O'],
      (t.step c).1 = { t with word := c :: t.word, content := true, line := c :: t.line } := by
    intro t ht c hc
    have hall : ∀ c ∈ ['G', 'O'], c.isAlphanum = true ∧ c.toUpper = c := by decide
    obtain ⟨halphanum, hupper⟩ := hall c hc
    have hword : t.isWordByte c = true := by simp [isWordByte, halphanum]
    have hstep : t.step c = t.stepNormal c := by simp only [step, ht]
    rw [hstep, stepNormal, if_pos hword, hupper]
    rfl
  have hfirst := hletter s hregion 'G' (by decide)
  have hregion' : (s.step 'G').1.region = .normal := by rw [hfirst]; exact hregion
  rw [hletter _ hregion' 'O' (by decide), hfirst]
  simp only [step, hregion]
  rw [stepNormal_newline, endLine, if_pos]
  have hgo : upper ['G', 'O'] = ['G', 'O'] := by decide
  simp [isTerminatorLine, hquoted, hline, hlines, hgo]

/-! ### Behind a text that leaves nothing open -/

theorem outside_after_semicolon (h : (after rules cs).unfinished? = none) {u : List Char}
    (hu : ∀ c ∈ u, Plain rules c) : (after rules (cs ++ ';' :: u)).Outside := by
  have hplain : Plain rules ';' := ⟨by decide, fun _ => by decide⟩
  have hfirst := outside_of_unfinished h (by decide) hplain (by decide)
  rw [List.append_cons]
  exact outside_after hfirst hu

/-- Whatever the text, a `;` and a `GO` line behind it end a statement. -/
theorem not_cutFree_go (hlines : rules.goLines = true) (h : (after rules cs).unfinished? = none) :
    ¬ CutFree rules (cs ++ [';', '\n', 'G', 'O', '\n']) := by
  intro hfree
  have hparts : cs ++ [';', '\n', 'G', 'O', '\n'] =
      cs ++ [';'] ++ ['\n'] ++ ['G'] ++ ['O'] ++ ['\n'] := by simp
  rw [hparts] at hfree
  obtain ⟨hfree, hgo⟩ := cutFree_concat.1 hfree
  have hline := (cutFree_concat.1 hfree.left.left).2
  have hquiet := quiet_after (outside_after_semicolon h (u := []) (by simp)) hline
  have hend := hquiet.step_go (by rwa [rules_after])
  rw [cutsAt, after_concat, after_concat, feedChar_of_lt _ (by decide), feedChar_of_lt _ (by decide),
    feedChar_of_lt _ (by decide), hend] at hgo
  exact absurd hgo (by simp)

/-- Where a `;` and a line end do not end the statement, the next lines go on with it. -/
theorem cutFree_nextLine (h : (after rules cs).unfinished? = none)
    (hfree : CutFree rules (cs ++ [';', '\n'])) {c : Char} (hsemicolon : c ≠ ';') (hc : c ≠ '\n') :
    CutFree rules (cs ++ [';', '\n'] ++ ['\n', c]) := by
  have hparts : cs ++ [';', '\n'] = cs ++ [';'] ++ ['\n'] := by simp
  have hline := hfree
  rw [hparts] at hline
  have hquiet := quiet_after (outside_after_semicolon h (u := []) (by simp)) (cutFree_concat.1 hline).2
  rw [← hparts] at hquiet
  have hempty : cutsAt rules (cs ++ [';', '\n']) '\n' = false := by
    rw [cutsAt, hquiet.feedChar (by decide)]
  have hlast : cs ++ [';', '\n'] ++ ['\n', c] = cs ++ [';', '\n'] ++ ['\n'] ++ [c] := by simp
  rw [hlast]
  exact cutFree_concat.2 ⟨cutFree_concat.2 ⟨hfree, hempty⟩, not_cutsAt_of_ne hsemicolon hc _⟩

/-! ### Behind a text that leaves something open -/

/-- The characters that a quote or a block comment may end with. -/
def enders : List Char := ['\x27', '\x22', '\x60', ']', '/', '$']

theorem unfinished_step (henclosing : s.Enclosing) (h : s.unfinished? ≠ none) {c : Char}
    (hc : c ∉ enders) : (s.step c).2 = false ∧ (s.step c).1.unfinished? ≠ none := by
  simp only [enders, List.mem_cons, List.not_mem_nil, or_false, not_or] at hc
  rw [Scanner.unfinished?] at h
  cases hr : s.region with
  | normal | dash | slash | lineComment | dollarTag | quoteEnd =>
    rw [hr] at h
    exact absurd rfl h
  | quote closing =>
    have hclosing : c ≠ closing := by
      have hmem := henclosing closing (.inl hr)
      simp only [List.mem_cons, List.not_mem_nil, or_false] at hmem
      rcases hmem with rfl | rfl | rfl | rfl
      · exact hc.1
      · exact hc.2.1
      · exact hc.2.2.1
      · exact hc.2.2.2.1
    simp only [step, hr, if_neg hclosing]
    split
    · simp [Scanner.unfinished?]
    · split <;> simp [Scanner.unfinished?, resetLine, hr]
  | escape closing =>
    simp [step, hr, Scanner.unfinished?]
  | blockComment =>
    simp only [step, hr]
    split
    · simp [Scanner.unfinished?]
    · split <;> simp [Scanner.unfinished?, resetLine, hr]
  | blockCommentStar =>
    simp only [step, hr, if_neg hc.2.2.2.2.1]
    split
    · simp [Scanner.unfinished?, hr]
    · split <;> simp [Scanner.unfinished?]
  | dollar tag found =>
    simp only [step, hr, stepDollar, hc.2.2.2.2.2, and_false, if_false]
    split <;> simp [Scanner.unfinished?, resetLine]

/-- What is open stays so up to a character that may end it. -/
theorem unfinished_append (hfree : CutFree rules cs) (h : (after rules cs).unfinished? ≠ none)
    {u : List Char} (hu : ∀ c ∈ u, c.toNat < 128 ∧ c ∉ enders) :
    CutFree rules (cs ++ u) ∧ (after rules (cs ++ u)).unfinished? ≠ none := by
  induction u using List.reverseRecOn with
  | nil => exact ⟨by rwa [List.append_nil], by rwa [List.append_nil]⟩
  | append_singleton u c ih =>
    obtain ⟨hrest, hc⟩ := List.forall_mem_append.1 hu
    obtain ⟨hlow, hender⟩ := hc c List.mem_cons_self
    obtain ⟨hfree, hopen⟩ := ih hrest
    obtain ⟨hcut, hopen⟩ := unfinished_step (enclosing_after rules (cs ++ u)) hopen hender
    rw [← List.append_assoc, after_concat, feedChar_of_lt _ hlow]
    exact ⟨cutFree_concat.2 ⟨hfree, by rwa [cutsAt, feedChar_of_lt _ hlow]⟩, hopen⟩

end DdlBridge.Statement
