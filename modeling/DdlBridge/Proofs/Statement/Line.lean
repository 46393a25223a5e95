import DdlBridge.Statement.Scanner

/-!
# What a scanner sees of its line

A scanner may have started anywhere on a line. What stood on the line before matters only where the
line ends, and only under the rules that know a line that ends a statement: up to there `step_over`
says that the scanner does what it does without that front part, and `step_newline` says what
becomes of it at the line end.
-/

namespace DdlBridge.Scanner

/-- The same scanner, had it started earlier on its line: `base` was on the line before, `quoted`
says whether a quoted region touched that part, and `last` is what the statement before held. -/
def onLine (s : Scanner) (base : List Char) (quoted last : Bool) : Scanner :=
  { s with line := s.line ++ base, lineQuoted := s.lineQuoted || quoted, lastContent := last }

variable (s : Scanner) (base : List Char) (quoted last : Bool) (c : Char)

theorem onWord_onLine (w : String) :
    (s.onLine base quoted last).onWord w = (s.onWord w).onLine base quoted last := by
  unfold onWord
  by_cases hpending : s.pendingEnd = true
  · rw [if_pos hpending, if_pos (show (s.onLine base quoted last).pendingEnd = true from hpending)]
    by_cases hplain : w ∈ endSuffixes
    · rw [if_pos hplain, if_pos hplain]
      rfl
    · rw [if_neg hplain, if_neg hplain]
      split <;> rfl
  · rw [if_neg hpending, if_neg (show ¬ (s.onLine base quoted last).pendingEnd = true from hpending)]
    rfl

theorem endWord_onLine :
    (s.onLine base quoted last).endWord = s.endWord.onLine base quoted last := by
  have hword := onWord_onLine { s with word := [] } base quoted last s.wordText
  unfold endWord
  by_cases hempty : s.word.isEmpty = true
  · rw [if_pos hempty, if_pos (show (s.onLine base quoted last).word.isEmpty = true from hempty)]
  · rw [if_neg hempty, if_neg (show ¬ (s.onLine base quoted last).word.isEmpty = true from hempty)]
    exact congrArg (fun t : Scanner => { t with previous := .word s.wordText }) hword

/-- What a step comes to in a scanner that started earlier on the line. -/
def onLineStep (base : List Char) (quoted last : Bool) (r : Scanner × Bool) : Scanner × Bool :=
  (r.1.onLine base quoted (if r.2 then r.1.lastContent else last), r.2)

theorem terminator_onLine :
    (s.onLine base quoted last).terminator = onLineStep base quoted last s.terminator := by
  change ite (s.storedUnit = true ∨ s.settleEnd.depth ≠ 0) _ _ =
    onLineStep base quoted last (ite (s.storedUnit = true ∨ s.settleEnd.depth ≠ 0) _ _)
  split <;> rfl

theorem stepSymbol_onLine (hc : c ≠ '\n') :
    (s.onLine base quoted last).stepSymbol c = onLineStep base quoted last (s.stepSymbol c) := by
  unfold stepSymbol
  split
  case h_1 => exact absurd rfl hc
  case h_6 => exact terminator_onLine (s.takePunct ';') base quoted last
  case h_11 =>
    change (ite (s.rules.backtickQuotes = true) _ _, false) = _
    split <;> rfl
  case h_12 =>
    change (ite (s.rules.bracketQuotes = true) _ _, false) = _
    split <;> rfl
  case h_13 =>
    change (ite (s.rules.hashComments = true) _ _, false) = _
    split <;> rfl
  case h_14 =>
    change ite (s.rules.dollarQuotes = true) _ _ = _
    split <;> rfl
  all_goals rfl

theorem stepNormal_onLine (hc : c ≠ '\n') :
    (s.onLine base quoted last).stepNormal c = onLineStep base quoted last (s.stepNormal c) := by
  unfold stepNormal
  change ite (s.isWordByte c = true) _ _ = _
  by_cases hword : s.isWordByte c = true
  · rw [if_pos hword, if_pos hword]
    rfl
  · rw [if_neg hword, if_neg hword, endWord_onLine]
    exact stepSymbol_onLine s.endWord base quoted last c hc

/-- What holds of the region of every scanner that has read something. -/
structure Sound (s : Scanner) : Prop where
  /-- The character that may open a comment is on the line. -/
  opener : s.region = .dash ∨ s.region = .slash → s.line ≠ []
  /-- No quote ends with its line. -/
  closing : ∀ closing, s.region = .quote closing ∨ s.region = .quoteEnd closing ∨
    s.region = .escape closing → closing ≠ '\n'
  escape : ∀ closing, s.region = .escape closing → s.rules.backslashEscapes = true
  word : s.region ≠ .normal → s.word = []

theorem popLine_onLine {s : Scanner} (h : s.line ≠ []) :
    (s.onLine base quoted last).popLine = s.popLine.onLine base quoted last := by
  obtain ⟨d, rest, hline⟩ := List.exists_cons_of_ne_nil h
  have htail : (s.line ++ base).tail = s.line.tail ++ base := by
    rw [hline]
    rfl
  simp only [popLine, onLine, htail]

theorem stepDollar_onLine (hc : c ≠ '\n') (tag : List Char) (found : Option Nat) :
    (s.onLine base quoted last).stepDollar tag found c =
      (s.stepDollar tag found c).onLine base quoted last := by
  unfold stepDollar
  rw [if_neg hc, if_neg hc]
  split <;> rfl

/-- Away from line ends a scanner does not look at the line. -/
theorem step_onLine (hsound : s.Sound) (hc : c ≠ '\n') :
    (s.onLine base quoted last).step c = onLineStep base quoted last (s.step c) := by
  have hregion : (s.onLine base quoted last).region = s.region := rfl
  unfold step
  rw [hregion]
  cases hr : s.region with
  | normal => exact stepNormal_onLine s base quoted last c hc
  | dash =>
    simp only
    rw [popLine_onLine base quoted last (hsound.opener (.inl hr))]
    by_cases hdash : c = '-'
    · rw [if_pos hdash, if_pos hdash]
      rfl
    · rw [if_neg hdash, if_neg hdash]
      exact stepNormal_onLine { s with content := true, previous := .punct '-', region := .normal }
        base quoted last c hc
  | slash =>
    simp only
    rw [popLine_onLine base quoted last (hsound.opener (.inr hr))]
    by_cases hdash : c = '*'
    · rw [if_pos hdash, if_pos hdash]
      rfl
    · rw [if_neg hdash, if_neg hdash]
      exact stepNormal_onLine { s with content := true, previous := .punct '/', region := .normal }
        base quoted last c hc
  | lineComment =>
    simp only
    rw [if_neg hc, if_neg hc]
    rfl
  | blockComment =>
    simp only
    rw [if_neg hc, if_neg hc]
    split <;> rfl
  | blockCommentStar =>
    simp only
    rw [if_neg hc, if_neg hc]
    split
    · rfl
    · split <;> rfl
  | quote closing =>
    simp only
    rw [if_neg hc, if_neg hc]
    split
    · rfl
    · by_cases hescape : c = '\\' ∧ s.rules.backslashEscapes = true ∧
          (closing = '\x27' ∨ closing = '\x22')
      · rw [if_pos hescape]
        exact if_pos hescape
      · rw [if_neg hescape]
        exact if_neg hescape
  | quoteEnd closing =>
    simp only
    by_cases hclose : c = closing
    · rw [if_pos hclose, if_pos hclose]
      rfl
    · rw [if_neg hclose, if_neg hclose]
      exact stepNormal_onLine { s with region := .normal } base quoted last c hc
  | escape closing => rfl
  | dollarTag tag =>
    simp only
    by_cases hclose : c = '$'
    · rw [if_pos hclose, if_pos hclose]
      rfl
    · rw [if_neg hclose, if_neg hclose]
      split
      · rfl
      · exact stepNormal_onLine { s with region := .normal } base quoted last c hc
  | dollar tag found =>
    simp only
    rw [stepDollar_onLine s base quoted last c hc]
    rfl

/-! ### Line ends -/

theorem onLine_self : s.onLine [] false s.lastContent = s := by
  simp only [onLine, List.append_nil, Bool.or_false]

theorem stepNormal_newline : s.stepNormal '\n' = s.endWord.endLine :=
  if_neg (by simp [isWordByte])

theorem stepNormal_onLine_newline :
    (s.onLine base quoted last).stepNormal '\n' = (s.endWord.onLine base quoted last).endLine := by
  rw [stepNormal_newline, endWord_onLine]

/-- How a scanner takes a line end, whatever stands on the front part of the line. -/
inductive EndsLine (s : Scanner) : Prop where
  /-- The line is looked at. -/
  | ends (t : Scanner) (hregion : t.region = .normal) (hword : t.word = [])
      (hrules : t.rules = s.rules) (hlast : t.lastContent = s.lastContent)
      (hstep : ∀ base quoted last, (s.onLine base quoted last).step '\n' =
        (t.onLine base quoted last).endLine)
  /-- The line is dropped inside a literal or a comment. -/
  | drops (t : Scanner) (hlast : t.lastContent = s.lastContent)
      (hstep : ∀ base quoted last, (s.onLine base quoted last).step '\n' =
        (t.onLine [] false last, false))
  /-- The line end is escaped, and the line goes on. -/
  | escapes (t : Scanner) (hescape : s.rules.backslashEscapes = true)
      (hlast : t.lastContent = s.lastContent)
      (hstep : ∀ base quoted last, (s.onLine base quoted last).step '\n' =
        (t.onLine base quoted last, false))

theorem EndsLine.of_normal {s t : Scanner} (hregion : t.region = .normal)
    (hrules : t.rules = s.rules) (hlast : t.lastContent = s.lastContent)
    (hstep : ∀ base quoted last, (s.onLine base quoted last).step '\n' =
      (t.onLine base quoted last).stepNormal '\n') : EndsLine s :=
  .ends t.endWord (t.region_endWord.trans hregion) t.word_endWord (t.rules_endWord.trans hrules)
    (t.lastContent_endWord.trans hlast)
    fun base quoted last => by rw [hstep, stepNormal_onLine_newline]

theorem step_newline {s : Scanner} (hsound : s.Sound) : EndsLine s := by
  have hregion : ∀ base quoted last, (s.onLine base quoted last).region = s.region :=
    fun _ _ _ => rfl
  cases hr : s.region with
  | normal =>
    refine .of_normal hr rfl rfl fun base quoted last => ?_
    simp only [step, hregion, hr]
  | dash =>
    refine .of_normal (t := { s with content := true, previous := .punct '-', region := .normal })
      rfl rfl rfl fun base quoted last => ?_
    simp only [step, hregion, hr]
    exact if_neg (by decide)
  | slash =>
    refine .of_normal (t := { s with content := true, previous := .punct '/', region := .normal })
      rfl rfl rfl fun base quoted last => ?_
    simp only [step, hregion, hr]
    exact if_neg (by decide)
  | lineComment =>
    refine .ends { s with region := .normal } rfl (hsound.word (by simp [hr])) rfl rfl
      fun base quoted last => ?_
    simp only [step, hregion, hr]
    exact if_pos trivial
  | blockComment =>
    refine .drops (s.resetLine false) rfl fun base quoted last => ?_
    simp only [step, hregion, hr]
    rfl
  | blockCommentStar =>
    refine .drops { s.resetLine false with region := .blockComment } rfl fun base quoted last => ?_
    simp only [step, hregion, hr]
    rfl
  | quote closing =>
    have hclosing : ¬ '\n' = closing := fun heq => hsound.closing closing (.inl hr) heq.symm
    refine .drops (s.resetLine true) rfl fun base quoted last => ?_
    simp only [step, hregion, hr]
    rw [if_neg hclosing]
    rfl
  | quoteEnd closing =>
    have hclosing : ¬ '\n' = closing := fun heq => hsound.closing closing (.inr (.inl hr)) heq.symm
    refine .of_normal (t := { s with region := .normal }) rfl rfl rfl fun base quoted last => ?_
    simp only [step, hregion, hr]
    exact if_neg hclosing
  | escape closing =>
    refine .escapes { s with region := .quote closing } (hsound.escape closing hr)
      rfl fun base quoted last => ?_
    simp only [step, hregion, hr]
    rfl
  | dollarTag tag =>
    have htag : ¬ ('\n'.isAlpha ∨ '\n' = '_' ∨ ('\n'.isDigit ∧ tag ≠ [])) := by
      rintro (h | h | ⟨h, -⟩) <;> exact absurd h (by decide)
    refine .of_normal (t := { s with region := .normal }) rfl rfl rfl fun base quoted last => ?_
    simp only [step, hregion, hr]
    rw [if_neg (by decide)]
    exact if_neg htag
  | dollar tag found =>
    have hfound : ¬ (found = some tag.length ∧ '\n' = '$') := fun h => absurd h.2 (by decide)
    refine .drops ({ s with region := .dollar tag (dollarFound tag found '\n') }.resetLine true)
      rfl fun base quoted last => ?_
    simp only [step, hregion, hr, stepDollar]
    rw [if_neg hfound]
    rfl

/-- With `;` on its front part a line ends no statement by itself. -/
theorem not_isTerminatorLine_onLine (hbase : ';' ∈ base) :
    (s.onLine base quoted last).isTerminatorLine = false := by
  have hmem : ';' ∈ s.line ++ base := List.mem_append_right _ hbase
  have hslash : (s.line ++ base == ['/']) = false := by
    rw [beq_eq_false_iff_ne]
    intro heq
    rw [heq] at hmem
    exact absurd hmem (by decide)
  have hgo : (Text.upper (s.line ++ base).reverse == ['G', 'O']) = false := by
    rw [beq_eq_false_iff_ne]
    intro heq
    have hupper : ';'.toUpper ∈ Text.upper (s.line ++ base).reverse :=
      List.mem_map_of_mem (List.mem_reverse.2 hmem)
    rw [heq] at hupper
    exact absurd hupper (by decide)
  simp only [isTerminatorLine, onLine, hslash, hgo, Bool.and_false, Bool.or_self]

theorem endLine_onLine (hsame : (s.onLine base quoted last).isTerminatorLine = s.isTerminatorLine) :
    (s.onLine base quoted last).endLine = onLineStep [] false last s.endLine := by
  unfold endLine
  rw [hsame]
  split <;> rfl

end DdlBridge.Scanner
