import DdlBridge.Proofs.Statement.Line
import DdlBridge.Proofs.Text.Utf8
import DdlBridge.Statement.Split

/-!
# A scanner starts afresh behind a statement end

What a step can do is said once (`step_cases`). From it follows that only `;` and the line end cut,
and that a cut leaves a fresh scanner which at most remembers the line it is on
(`feedChar_restarts`).
-/

namespace DdlBridge.Scanner

/-! ### What a step can do -/

/-- The regions of a quoted literal or identifier. -/
def Quotes (closing : Char) (region : Region) : Prop :=
  region = .quote closing ∨ region = .quoteEnd closing ∨ region = .escape closing

/-- The three kinds of step: the byte is read outside every region, it ends a line comment, or the
scanner stays inside. -/
inductive StepCase (s : Scanner) (c : Char) : Prop where
  | outside (content : Bool) (previous : Previous) (hcontent : s.content = true → content = true)
      (hstep : s.step c = { s with region := .normal, content, previous }.stepNormal c)
  | lineComment (hregion : s.region = .lineComment) (hc : c = '\n')
      (hstep : s.step c = { s with region := .normal }.endLine)
  | inside (region : Region) (line : List Char) (lineQuoted : Bool)
      (hregion : s.region ≠ .normal) (hdash : region ≠ .dash) (hslash : region ≠ .slash)
      (hquotes : ∀ closing, Quotes closing region → Quotes closing s.region)
      (hescape : ∀ closing, region = .escape closing → s.rules.backslashEscapes = true)
      (hstep : s.step c = ({ s with region, line, lineQuoted }, false))

/-- The regions of no literal, other than those behind half a comment opener. -/
def Unquoted : Region → Prop
  | .dash | .slash | .quote _ | .quoteEnd _ | .escape _ => False
  | _ => True

theorem Unquoted.not_quotes {region : Region} (h : Unquoted region) (closing : Char) :
    ¬ Quotes closing region := by
  rintro (rfl | rfl | rfl)
  all_goals exact h

theorem Quotes.closing_eq {region : Region} {closing other : Char} (h : Quotes closing region)
    (hother : Quotes other region) : other = closing := by
  rcases h with rfl | rfl | rfl
  all_goals simpa [Quotes, eq_comm] using hother

theorem StepCase.unquoted {s : Scanner} {c : Char} (region : Region) (line : List Char)
    (lineQuoted : Bool) (hregion : s.region ≠ .normal) (h : Unquoted region)
    (hstep : s.step c = ({ s with region, line, lineQuoted }, false)) : StepCase s c := by
  refine .inside region line lineQuoted hregion ?_ ?_ (fun closing hquotes => ?_)
    (fun closing hescape => ?_) hstep
  · exact fun heq => (heq ▸ h : Unquoted .dash)
  · exact fun heq => (heq ▸ h : Unquoted .slash)
  · exact absurd hquotes (h.not_quotes closing)
  · exact absurd (.inr (.inr hescape)) (h.not_quotes closing)

theorem StepCase.quoted {s : Scanner} {c closing : Char} (region : Region) (line : List Char)
    (lineQuoted : Bool) (hregion : Quotes closing s.region) (h : Quotes closing region)
    (hescape : region = .escape closing → s.rules.backslashEscapes = true)
    (hstep : s.step c = ({ s with region, line, lineQuoted }, false)) : StepCase s c := by
  refine .inside region line lineQuoted ?_ ?_ ?_ (fun other hquotes => ?_) (fun other hother => ?_)
    hstep
  · rcases hregion with heq | heq | heq <;> simp [heq]
  · rcases h with rfl | rfl | rfl <;> simp
  · rcases h with rfl | rfl | rfl <;> simp
  · rwa [h.closing_eq hquotes]
  · exact hescape (h.closing_eq (.inr (.inr hother)) ▸ hother)

theorem stepCase_of_opener {s : Scanner} {c : Char} (h : s.region = .dash ∨ s.region = .slash) :
    StepCase s c := by
  rcases h with hr | hr
  · by_cases hdash : c = '-'
    · refine .unquoted .lineComment s.line.tail s.lineQuoted (by simp [hr]) trivial ?_
      simp only [step, hr]
      exact if_pos hdash
    · refine .outside true (.punct '-') (fun _ => rfl) ?_
      simp only [step, hr]
      exact if_neg hdash
  · by_cases hstar : c = '*'
    · refine .unquoted .blockComment s.line.tail s.lineQuoted (by simp [hr]) trivial ?_
      simp only [step, hr]
      exact if_pos hstar
    · refine .outside true (.punct '/') (fun _ => rfl) ?_
      simp only [step, hr]
      exact if_neg hstar

theorem stepCase_of_comment {s : Scanner} {c : Char}
    (h : s.region = .lineComment ∨ s.region = .blockComment ∨ s.region = .blockCommentStar) :
    StepCase s c := by
  rcases h with hr | hr | hr
  · by_cases hc : c = '\n'
    · refine .lineComment hr hc ?_
      simp only [step, hr]
      exact if_pos hc
    · refine .unquoted .lineComment s.line s.lineQuoted (by simp [hr]) trivial ?_
      simp only [step, hr]
      rw [if_neg hc, ← hr]
  · by_cases hstar : c = '*'
    · refine .unquoted .blockCommentStar s.line s.lineQuoted (by simp [hr]) trivial ?_
      simp only [step, hr]
      exact if_pos hstar
    · refine .unquoted .blockComment (if c = '\n' then [] else s.line)
        (if c = '\n' then false else s.lineQuoted) (by simp [hr]) trivial ?_
      simp only [step, hr]
      rw [if_neg hstar, ← hr]
      split <;> rfl
  · by_cases hslash : c = '/'
    · refine .unquoted .normal s.line s.lineQuoted (by simp [hr]) trivial ?_
      simp only [step, hr]
      exact if_pos hslash
    by_cases hstar : c = '*'
    · refine .unquoted .blockCommentStar s.line s.lineQuoted (by simp [hr]) trivial ?_
      simp only [step, hr]
      rw [if_neg hslash, if_pos hstar, ← hr]
    · refine .unquoted .blockComment (if c = '\n' then [] else s.line)
        (if c = '\n' then false else s.lineQuoted) (by simp [hr]) trivial ?_
      simp only [step, hr]
      rw [if_neg hslash, if_neg hstar]
      split <;> rfl

theorem stepCase_of_quote {s : Scanner} {c closing : Char} (h : Quotes closing s.region) :
    StepCase s c := by
  rcases h with hr | hr | hr
  · by_cases hclose : c = closing
    · refine .quoted (.quoteEnd closing) s.line s.lineQuoted (.inl hr) (.inr (.inl rfl)) (by simp) ?_
      simp only [step, hr]
      exact if_pos hclose
    by_cases hescape : c = '\\' ∧ s.rules.backslashEscapes = true ∧
        (closing = '\x27' ∨ closing = '\x22')
    · refine .quoted (.escape closing) s.line s.lineQuoted (.inl hr) (.inr (.inr rfl))
        (fun _ => hescape.2.1) ?_
      simp only [step, hr]
      rw [if_neg hclose]
      exact if_pos hescape
    · refine .quoted (.quote closing) (if c = '\n' then [] else s.line)
        (if c = '\n' then true else s.lineQuoted) (.inl hr) (.inl rfl) (by simp) ?_
      simp only [step, hr]
      rw [if_neg hclose, if_neg hescape, ← hr]
      split <;> rfl
  · by_cases hclose : c = closing
    · refine .quoted (.quote closing) s.line s.lineQuoted (.inr (.inl hr)) (.inl rfl) (by simp) ?_
      simp only [step, hr]
      exact if_pos hclose
    · refine .outside s.content s.previous id ?_
      simp only [step, hr]
      exact if_neg hclose
  · refine .quoted (.quote closing) s.line s.lineQuoted (.inr (.inr hr)) (.inl rfl) (by simp) ?_
    simp only [step, hr]

theorem stepCase_of_dollar {s : Scanner} {c : Char} {tag : List Char}
    (h : s.region = .dollarTag tag ∨ ∃ found, s.region = .dollar tag found) : StepCase s c := by
  rcases h with hr | ⟨found, hr⟩
  · by_cases hclose : c = '$'
    · refine .unquoted (.dollar tag none) s.line true (by simp [hr]) trivial ?_
      simp only [step, hr]
      exact if_pos hclose
    by_cases htag : c.isAlpha ∨ c = '_' ∨ (c.isDigit ∧ tag ≠ [])
    · refine .unquoted (.dollarTag (tag ++ [c])) (c :: s.line) s.lineQuoted (by simp [hr]) trivial ?_
      simp only [step, hr]
      rw [if_neg hclose]
      exact if_pos htag
    · refine .outside s.content s.previous id ?_
      simp only [step, hr]
      rw [if_neg hclose]
      exact if_neg htag
  · by_cases hclose : found = some tag.length ∧ c = '$'
    · refine .unquoted .normal s.line s.lineQuoted (by simp [hr]) trivial ?_
      simp only [step, hr, stepDollar]
      rw [if_pos hclose]
    · refine .unquoted (.dollar tag (dollarFound tag found c)) (if c = '\n' then [] else s.line)
        (if c = '\n' then true else s.lineQuoted) (by simp [hr]) trivial ?_
      simp only [step, hr, stepDollar]
      rw [if_neg hclose]
      split <;> rfl

theorem step_cases (s : Scanner) (c : Char) : StepCase s c := by
  cases hr : s.region with
  | normal =>
    refine .outside s.content s.previous id ?_
    simp only [step, hr]
    rw [← hr]
  | dash => exact stepCase_of_opener (.inl hr)
  | slash => exact stepCase_of_opener (.inr hr)
  | lineComment => exact stepCase_of_comment (.inl hr)
  | blockComment => exact stepCase_of_comment (.inr (.inl hr))
  | blockCommentStar => exact stepCase_of_comment (.inr (.inr hr))
  | quote closing => exact stepCase_of_quote (.inl hr)
  | quoteEnd closing => exact stepCase_of_quote (.inr (.inl hr))
  | escape closing => exact stepCase_of_quote (.inr (.inr hr))
  | dollarTag tag => exact stepCase_of_dollar (.inl hr)
  | dollar tag found => exact stepCase_of_dollar (.inr ⟨found, hr⟩)

/-! ### Soundness and rules are kept -/

theorem rules_terminator (s : Scanner) : s.terminator.1.rules = s.rules := by
  unfold terminator
  split <;> rfl

theorem region_terminator (s : Scanner) : s.terminator.1.region = s.region := by
  unfold terminator
  split <;> rfl

theorem rules_endLine (s : Scanner) : s.endLine.1.rules = s.rules := by
  unfold endLine
  split <;> rfl

theorem region_endLine (s : Scanner) : s.endLine.1.region = s.region := by
  unfold endLine
  split <;> rfl

theorem rules_stepSymbol (s : Scanner) (c : Char) : (s.stepSymbol c).1.rules = s.rules := by
  unfold stepSymbol
  split
  case h_1 => exact s.rules_endLine
  case h_6 => exact (s.takePunct ';').rules_terminator
  case h_11 => dsimp only; split <;> rfl
  case h_12 => dsimp only; split <;> rfl
  case h_13 => dsimp only; split <;> rfl
  case h_14 => split <;> rfl
  all_goals rfl

theorem rules_stepNormal (s : Scanner) (c : Char) : (s.stepNormal c).1.rules = s.rules := by
  unfold stepNormal
  split
  · rfl
  · rw [rules_stepSymbol, rules_endWord]

theorem rules_step (s : Scanner) (c : Char) : (s.step c).1.rules = s.rules := by
  cases step_cases s c with
  | outside content previous hcontent hstep => rw [hstep, rules_stepNormal]
  | lineComment hregion hc hstep => rw [hstep, rules_endLine]
  | inside region line lineQuoted hregion hdash hslash hquotes hescape hstep => rw [hstep]

theorem Sound.of_normal {s : Scanner} (h : s.region = .normal) : s.Sound where
  opener := by simp [h]
  closing := by simp [h]
  escape := by simp [h]
  word hne := absurd h hne

theorem Sound.of_quote {s : Scanner} {closing : Char}
    (h : s.region = .quote closing ∨ s.region = .quoteEnd closing) (hclosing : closing ≠ '\n')
    (hword : s.word = []) : s.Sound where
  opener := by rcases h with h | h <;> simp [h]
  closing := by
    intro other hother
    rcases h with h | h <;> rw [h] at hother <;> simp at hother <;> exact hother ▸ hclosing
  escape := by rcases h with h | h <;> simp [h]
  word _ := hword

theorem Sound.of_opener {s : Scanner} (h : s.region = .dash ∨ s.region = .slash)
    (hline : s.line ≠ []) (hword : s.word = []) : s.Sound where
  opener _ := hline
  closing := by rcases h with h | h <;> simp [h]
  escape := by rcases h with h | h <;> simp [h]
  word _ := hword

theorem sound_stepSymbol (s : Scanner) (c : Char) (hregion : s.region = .normal) (hword : s.word = []) :
    (s.stepSymbol c).1.Sound := by
  unfold stepSymbol
  split
  case h_1 => exact .of_normal (s.region_endLine.trans hregion)
  case h_6 => exact .of_normal ((s.takePunct ';').region_terminator.trans hregion)
  case h_7 => exact .of_opener (.inl rfl) (by simp [pushLine]) hword
  case h_8 => exact .of_opener (.inr rfl) (by simp [pushLine]) hword
  case h_9 => exact .of_quote (.inl rfl) (by decide) hword
  case h_10 => exact .of_quote (.inl rfl) (by decide) hword
  case h_11 =>
    dsimp only
    split
    · exact .of_quote (.inl rfl) (by decide) hword
    · exact .of_normal hregion
  case h_12 =>
    dsimp only
    split
    · exact .of_quote (.inl rfl) (by decide) hword
    · exact .of_normal hregion
  case h_13 =>
    dsimp only
    split
    · exact ⟨by simp, by simp, by simp, fun _ => hword⟩
    · exact .of_normal hregion
  case h_14 =>
    split
    · exact ⟨by simp, by simp, by simp, fun _ => hword⟩
    · exact .of_normal hregion
  all_goals exact .of_normal hregion

theorem sound_stepNormal (s : Scanner) (c : Char) (hregion : s.region = .normal) :
    (s.stepNormal c).1.Sound := by
  unfold stepNormal
  split
  · exact .of_normal hregion
  · exact sound_stepSymbol s.endWord c (s.region_endWord.trans hregion) s.word_endWord

theorem Sound.step {s : Scanner} (hsound : s.Sound) (c : Char) : (s.step c).1.Sound := by
  cases step_cases s c with
  | outside content previous hcontent hstep =>
    rw [hstep]
    exact sound_stepNormal _ c rfl
  | lineComment hregion hc hstep =>
    rw [hstep]
    exact .of_normal (region_endLine _)
  | inside region line lineQuoted hregion hdash hslash hquotes hescape hstep =>
    rw [hstep]
    refine ⟨?_, fun closing hclosing => ?_, hescape, fun _ => hsound.word hregion⟩
    · rintro (h | h)
      · exact absurd h hdash
      · exact absurd h hslash
    · exact hsound.closing closing (hquotes closing hclosing)

/-! ### Statement ends -/

def fresh (rules : LexicalRules) : Scanner := { rules }

theorem sound_fresh (rules : LexicalRules) : (fresh rules).Sound := .of_normal rfl

/-- Rules under which no line ends a statement by itself. -/
def LineFree (rules : LexicalRules) : Prop := rules.slashLines = false ∧ rules.goLines = false

theorem isTerminatorLine_of_lineFree {s : Scanner} (h : LineFree s.rules) :
    s.isTerminatorLine = false := by
  simp only [isTerminatorLine, h.1, h.2, Bool.false_and, Bool.or_self, Bool.and_false]

/-- The scanner is a fresh one, but for the line it is on. -/
def Restarted (rules : LexicalRules) (c : Char) (s : Scanner) : Prop :=
  (c = ';' ∧ ∃ line quoted last, s = (fresh rules).onLine (';' :: line) quoted last) ∨
    (c = '\n' ∧ ¬ LineFree rules ∧ ∃ last, s = (fresh rules).onLine [] false last)

theorem eq_onLine_fresh {s : Scanner} (hregion : s.region = .normal) (hword : s.word = []) :
    s.resetStatement = (fresh s.rules).onLine s.line s.lineQuoted s.content := by
  simp only [resetStatement, onLine, fresh, hregion, hword, List.nil_append, Bool.false_or]

theorem endLine_restarts {s : Scanner} (hregion : s.region = .normal) (hword : s.word = [])
    (hcut : s.endLine.2 = true) : Restarted s.rules '\n' s.endLine.1 := by
  unfold endLine at hcut ⊢
  split at hcut
  case isTrue h =>
    rw [if_pos h]
    refine .inr ⟨rfl, fun hfree => ?_, s.content, eq_onLine_fresh hregion hword⟩
    rw [isTerminatorLine_of_lineFree hfree] at h
    exact absurd h (by simp)
  case isFalse => simp at hcut

theorem terminator_restarts {s : Scanner} (hregion : s.region = .normal) (hword : s.word = [])
    (hcut : (s.takePunct ';').terminator.2 = true) :
    Restarted s.rules ';' (s.takePunct ';').terminator.1 := by
  unfold terminator at hcut ⊢
  split at hcut
  case isTrue => simp at hcut
  case isFalse h =>
    rw [if_neg h]
    exact .inl ⟨rfl, s.line, s.lineQuoted, true, eq_onLine_fresh hregion hword⟩

theorem stepSymbol_restarts {s : Scanner} {c : Char} (hregion : s.region = .normal)
    (hword : s.word = []) (hcut : (s.stepSymbol c).2 = true) :
    Restarted s.rules c (s.stepSymbol c).1 := by
  unfold stepSymbol at hcut ⊢
  split at hcut
  case h_1 => exact endLine_restarts hregion hword hcut
  case h_6 => exact terminator_restarts hregion hword hcut
  case h_14 => split at hcut <;> simp at hcut
  all_goals simp at hcut

theorem stepNormal_restarts {s : Scanner} {c : Char} (hregion : s.region = .normal)
    (hcut : (s.stepNormal c).2 = true) : Restarted s.rules c (s.stepNormal c).1 := by
  unfold stepNormal at hcut ⊢
  split at hcut
  case isTrue => simp at hcut
  case isFalse h =>
    rw [if_neg h]
    have hrestart := stepSymbol_restarts (s.region_endWord.trans hregion) s.word_endWord hcut
    rwa [rules_endWord] at hrestart

/-- Behind a statement end a scanner starts afresh, except that it may still be on its line. -/
theorem step_restarts {s : Scanner} {c : Char} (hsound : s.Sound) (hcut : (s.step c).2 = true) :
    Restarted s.rules c (s.step c).1 := by
  cases step_cases s c with
  | outside content previous hcontent hstep =>
    rw [hstep] at hcut ⊢
    exact stepNormal_restarts rfl hcut
  | lineComment hregion hc hstep =>
    rw [hstep] at hcut ⊢
    rw [hc]
    exact endLine_restarts rfl (hsound.word (by simp [hregion])) hcut
  | inside region line lineQuoted hregion hdash hslash hquotes hescape hstep =>
    rw [hstep] at hcut
    exact absurd hcut (by simp)

/-! ### Content is kept -/

/-- What a step leaves of the content of the statement: the flag of the statement that it ended, if
it ended one. -/
def kept (r : Scanner × Bool) : Bool := if r.2 then r.1.lastContent else r.1.content

theorem kept_endLine (s : Scanner) : kept s.endLine = s.content := by
  unfold endLine
  split <;> rfl

theorem kept_terminator (s : Scanner) : kept s.terminator = s.content := by
  unfold terminator
  split <;> rfl

theorem kept_stepSymbol {s : Scanner} (h : s.content = true) (c : Char) :
    kept (s.stepSymbol c) = true := by
  unfold stepSymbol
  split
  case h_1 => rw [kept_endLine, h]
  case h_6 => exact kept_terminator _
  case h_11 => split <;> rfl
  case h_12 => split <;> rfl
  case h_13 => split <;> first | exact h | rfl
  case h_14 => split <;> rfl
  all_goals first | exact h | rfl

theorem kept_step {s : Scanner} (h : s.content = true) (c : Char) : kept (s.step c) = true := by
  cases step_cases s c with
  | outside content previous hcontent hstep =>
    rw [hstep]
    unfold stepNormal
    split
    · rfl
    · exact kept_stepSymbol ((content_endWord _).trans (hcontent h)) c
  | lineComment hregion hc hstep =>
    rw [hstep, kept_endLine]
    exact h
  | inside region line lineQuoted hregion hdash hslash hquotes hescape hstep =>
    rw [hstep]
    exact h

end DdlBridge.Scanner
