import DdlBridge.Proofs.Statement.Lexing
import DdlBridge.Proofs.Statement.TerminatorText

/-!
# Lines read as text

A scanner keeps a stack for its line, takes back half a comment opener, and forgets the line inside
literals and comments. Read as text, every character of a script belongs to its code, a comment or
a quoted region (`markAll`), and a line end cuts if its line holds no quoted character and its code is
a terminator (`feed_newline_iff`).
-/

namespace DdlBridge.Statement

open Scanner Text

/-- What a character of a script belongs to. -/
inductive Mark where
  | code
  | comment
  | quoted
  deriving DecidableEq, Repr

/-- What a text starts inside of. -/
inductive Surrounding where
  | nothing
  | lineComment
  | blockComment
  | quote (closing : Char)
  deriving DecidableEq, Repr

/-- Marks the characters of a text under rules without `#` comments, dollar quotes and escapes. A line
comment ends in front of the line feed. -/
def markAll (rules : LexicalRules) : Surrounding → List Char → List (Char × Mark)
  | _, [] => []
  | .nothing, '-' :: '-' :: cs =>
    ('-', .comment) :: ('-', .comment) :: markAll rules .lineComment cs
  | .nothing, '/' :: '*' :: cs =>
    ('/', .comment) :: ('*', .comment) :: markAll rules .blockComment cs
  | .nothing, c :: cs =>
    if opensQuote rules c then (c, .quoted) :: markAll rules (.quote (closing c)) cs
    else (c, .code) :: markAll rules .nothing cs
  | .lineComment, c :: cs =>
    if c = '\n' then (c, .code) :: markAll rules .nothing cs
    else (c, .comment) :: markAll rules .lineComment cs
  | .blockComment, '*' :: '/' :: cs =>
    ('*', .comment) :: ('/', .comment) :: markAll rules .nothing cs
  | .blockComment, c :: cs => (c, .comment) :: markAll rules .blockComment cs
  | .quote _, [c] => [(c, .quoted)]
  | .quote closing, c :: d :: cs =>
    if c = closing then
      if d = closing then (c, .quoted) :: (d, .quoted) :: markAll rules (.quote closing) cs
      else (c, .quoted) :: markAll rules .nothing (d :: cs)
    else (c, .quoted) :: markAll rules (.quote closing) (d :: cs)

/-- What stands on a line. -/
structure LineText where
  /-- Its code without blanks, last character first. -/
  code : List Char := []
  /-- Some of it is quoted. -/
  quoted : Bool := false

/-- The line behind a marked character. -/
def LineText.step (l : LineText) (m : Char × Mark) : LineText :=
  if m.1 = '\n' then {}
  else match m.2 with
    | .code => if m.1 ∈ plainBlanks then l else { l with code := m.1 :: l.code }
    | .comment => l
    | .quoted => { l with quoted := true }

/-- Whether the line is a terminator under the rules. -/
def LineText.Ends (rules : LexicalRules) (l : LineText) : Prop :=
  l.quoted = false ∧ ((rules.slashLines = true ∧ l.code = ['/']) ∨
    (rules.goLines = true ∧ upper l.code.reverse = ['G', 'O']))

variable {rules : LexicalRules} {s : Scanner} {c : Char} {cs : List Char} {l : LineText}

/-! ### The marks of the next characters -/

/-- Outside every region, in front of no comment. -/
theorem markAll_outside (hdash : ∀ rest, c = '-' → cs = '-' :: rest → False)
    (hslash : ∀ rest, c = '/' → cs = '*' :: rest → False) :
    markAll rules .nothing (c :: cs) =
      if opensQuote rules c then (c, .quoted) :: markAll rules (.quote (closing c)) cs
      else (c, .code) :: markAll rules .nothing cs :=
  markAll.eq_4 _ _ _ hdash hslash

theorem markAll_lineComment (hc : c ≠ '\n') :
    markAll rules .lineComment (c :: cs) = (c, .comment) :: markAll rules .lineComment cs := by
  rw [markAll, if_neg hc]

theorem markAll_blockComment (hclose : ∀ rest, c = '*' → cs = '/' :: rest → False) :
    markAll rules .blockComment (c :: cs) = (c, .comment) :: markAll rules .blockComment cs :=
  markAll.eq_7 _ _ _ hclose

theorem markAll_quote (closing d : Char) : markAll rules (.quote closing) (c :: d :: cs) =
    if c = closing then
      if d = closing then (c, .quoted) :: (d, .quoted) :: markAll rules (.quote closing) cs
      else (c, .quoted) :: markAll rules .nothing (d :: cs)
    else (c, .quoted) :: markAll rules (.quote closing) (d :: cs) :=
  markAll.eq_9 _ _ _ _ _

/-! ### A scanner in front of a text -/

/-- The scanner is inside of what the text in front of it starts inside of. It may still have to
decide about a character that was read, as long as the text settles what that one is. -/
inductive Stands (s : Scanner) (cs : List Char) (l : LineText) : Surrounding → Prop where
  | nothing {t : Scanner} (hregion : t.region = .normal) (hrules : t.rules = s.rules)
      (hline : t.line = l.code) (hquoted : t.lineQuoted = l.quoted)
      (hdone : s.unfinished? = none) (hstep : ∀ c ∈ cs.head?, s.step c = t.stepNormal c) :
      Stands s cs l .nothing
  | lineComment (hregion : s.region = .lineComment) (hline : s.line = l.code)
      (hquoted : s.lineQuoted = l.quoted) : Stands s cs l .lineComment
  | blockComment (hregion : s.region = .blockComment ∨
        (s.region = .blockCommentStar ∧ cs.head? ≠ some '/')) (hline : s.line = l.code)
      (hquoted : s.lineQuoted = l.quoted) : Stands s cs l .blockComment
  | quote {closing : Char} (hregion : s.region = .quote closing) (hclosing : closing ≠ '\n')
      (hline : s.line = l.code) (hquoted : s.lineQuoted = true) : Stands s cs l (.quote closing)

theorem Stands.of_normal (hregion : s.region = .normal) (hline : s.line = l.code)
    (hquoted : s.lineQuoted = l.quoted) : Stands s cs l .nothing := by
  refine .nothing hregion rfl hline hquoted ?_ fun c _ => ?_
  · simp only [Scanner.unfinished?, hregion]
  · simp only [step, hregion]

theorem isTerminatorLine_iff_ends (hline : s.line = l.code) (hquoted : s.lineQuoted = l.quoted) :
    s.isTerminatorLine = true ↔ l.Ends s.rules := by
  simp only [isTerminatorLine, LineText.Ends, hline, hquoted, Bool.and_eq_true, Bool.or_eq_true,
    Bool.not_eq_true', beq_iff_eq]

theorem cut_endLine_iff (hline : s.line = l.code) (hquoted : s.lineQuoted = l.quoted) :
    s.endLine.2 = true ↔ l.Ends s.rules := by
  rw [← isTerminatorLine_iff_ends hline hquoted, endLine]
  split
  case isTrue h => simp [h]
  case isFalse h => simp [h]

theorem stands_endLine (hregion : s.region = .normal) (m : Mark) :
    Stands s.endLine.1 cs (l.step ('\n', m)) .nothing := by
  have hstep : l.step ('\n', m) = {} := if_pos rfl
  have hquoted : s.endLine.1.lineQuoted = false := by
    unfold endLine
    split <;> rfl
  rw [hstep]
  exact .of_normal ((region_endLine s).trans hregion) (line_endLine s) hquoted

/-- A character that a word is made of stands on the line. -/
theorem stepCode_of_isWordByte (hword : s.isWordByte c = true) :
    l.step (c, .code) = { l with code := c :: l.code } := by
  have hne : ∀ d ∈ plainBlanks, s.isWordByte d = false := by
    intro d hd
    have hkeep : extendsWord d = false := by
      simp only [plainBlanks, List.mem_cons, List.not_mem_nil, or_false] at hd
      rcases hd with rfl | rfl | rfl | rfl | rfl <;> decide
    exact isWordByte_eq_false hkeep
  have hmem : c ∉ plainBlanks := fun hc => by
    rw [hne c hc] at hword
    exact absurd hword (by simp)
  have hnewline : c ≠ '\n' := by
    rintro rfl
    exact hmem (by decide)
  simp only [LineText.step, if_neg hnewline, if_neg hmem]

theorem lineQuoted_terminator (s : Scanner) : s.terminator.1.lineQuoted = s.lineQuoted := by
  unfold terminator
  split <;> rfl

theorem stepCode_of_not_mem (hc : c ∉ plainBlanks) :
    l.step (c, .code) = { l with code := c :: l.code } := by
  have hnewline : c ≠ '\n' := by
    rintro rfl
    exact hc (by decide)
  simp only [LineText.step, if_neg hnewline, if_neg hc]

/-- Punctuation stands on the line. -/
theorem Stands.of_punct {t : Scanner} (hc : c ∉ plainBlanks) (hregion : t.region = .normal)
    (hline : t.line = c :: l.code) (hquoted : t.lineQuoted = l.quoted) :
    Stands t cs (l.step (c, .code)) .nothing := by
  rw [stepCode_of_not_mem hc]
  exact .of_normal hregion hline hquoted

/-- A sign that may open a comment stands on the line unless the next character makes it one. -/
theorem Stands.of_opener {opener next : Char} {opening : Region} (hc : c ∉ plainBlanks)
    (hopener : (opening = .dash ∧ opener = '-' ∧ next = '-') ∨
      (opening = .slash ∧ opener = '/' ∧ next = '*'))
    (hregion : s.region = opening) (hnext : cs.head? ≠ some next) (hline : s.line = c :: l.code)
    (hquoted : s.lineQuoted = l.quoted) : Stands s cs (l.step (c, .code)) .nothing := by
  rw [stepCode_of_not_mem hc]
  refine .nothing
    (t := { s with content := true, previous := .punct opener, region := .normal })
    rfl rfl hline hquoted ?_ fun d hd => ?_
  · rcases hopener with ⟨rfl, -⟩ | ⟨rfl, -⟩ <;> simp only [Scanner.unfinished?, hregion]
  · have hd' : d ≠ next := by
      rintro rfl
      exact hnext hd
    rcases hopener with ⟨rfl, rfl, rfl⟩ | ⟨rfl, rfl, rfl⟩ <;> simp only [step, hregion, if_neg hd']

/-- What a character of the code does outside every region. -/
theorem stands_stepNormal (hplain : Plain s.rules) (hregion : s.region = .normal)
    (hline : s.line = l.code) (hquoted : s.lineQuoted = l.quoted)
    (hopen : opensQuote s.rules c = false) (hdash : c = '-' → cs.head? ≠ some '-')
    (hslash : c = '/' → cs.head? ≠ some '*') :
    Stands (s.stepNormal c).1 cs (l.step (c, .code)) .nothing := by
  unfold stepNormal
  split
  case isTrue hword =>
    rw [stepCode_of_isWordByte hword]
    exact .of_normal hregion (congrArg (c :: ·) hline) hquoted
  case isFalse =>
    have hregion' := (region_endWord s).trans hregion
    have hline' := (line_endWord s).trans hline
    have hquoted' := (lineQuoted_endWord s).trans hquoted
    rw [← rules_endWord s] at hplain hopen
    generalize s.endWord = t at *
    have hpush : ∀ d, d :: t.line = d :: l.code := fun d => congrArg (d :: ·) hline'
    simp only [opensQuote, Bool.or_eq_false_iff, Bool.and_eq_false_iff, beq_eq_false_iff_ne] at hopen
    unfold stepSymbol
    split
    case h_1 => exact stands_endLine hregion' .code
    case h_6 =>
      exact .of_punct (by decide) ((region_terminator _).trans hregion')
        ((line_terminator _).trans (hpush _)) ((lineQuoted_terminator _).trans hquoted')
    case h_7 =>
      exact .of_opener (by decide) (.inl ⟨rfl, rfl, rfl⟩) rfl (hdash rfl) (hpush _) hquoted'
    case h_8 =>
      exact .of_opener (by decide) (.inr ⟨rfl, rfl, rfl⟩) rfl (hslash rfl) (hpush _) hquoted'
    case h_9 => exact absurd rfl hopen.1.1.1
    case h_10 => exact absurd rfl hopen.1.1.2
    case h_11 =>
      have hrules : t.rules.backtickQuotes = false := by simpa using hopen.1.2
      simp only [hrules]
      exact .of_punct (by decide) hregion' (hpush _) hquoted'
    case h_12 =>
      have hrules : t.rules.bracketQuotes = false := by simpa using hopen.2
      simp only [hrules]
      exact .of_punct (by decide) hregion' (hpush _) hquoted'
    case h_13 =>
      simp only [hplain.hash]
      exact .of_punct (by decide) hregion' (hpush _) hquoted'
    case h_14 =>
      rw [if_neg (by rw [hplain.dollar]; simp)]
      exact .of_punct (by decide) hregion' (hpush _) hquoted'
    case h_15 => exact .of_punct (by decide) hregion' (hpush _) hquoted'
    case h_16 => exact .of_punct (by decide) hregion' (hpush _) hquoted'
    case h_17 =>
      exact .of_punct (by simp_all [plainBlanks]) hregion' (hpush _) hquoted'
    all_goals exact .of_normal hregion' hline' hquoted'

/-! ### A scanner through a text -/

/-- The scanner behind a text of single bytes. -/
def stepAll (s : Scanner) (cs : List Char) : Scanner := cs.foldl (fun s c => (s.step c).1) s

/-- The sign of a comment brings the scanner into the comment. -/
theorem Stands.opener {sign next : Char} (h : Stands s (sign :: next :: cs) l .nothing)
    {opening inside : Region} (hsign : (sign = '-' ∧ next = '-' ∧ opening = .dash ∧
      inside = .lineComment) ∨ (sign = '/' ∧ next = '*' ∧ opening = .slash ∧
      inside = .blockComment)) :
    (stepAll s [sign, next]).region = inside ∧ (stepAll s [sign, next]).line = l.code ∧
      (stepAll s [sign, next]).lineQuoted = l.quoted := by
  cases h with
  | @nothing t hregion hrules hline hquoted hdone hstep =>
    have hfirst : s.step sign = ({ t.endWord.pushLine sign with region := opening }, false) := by
      rw [hstep sign rfl, stepNormal]
      rcases hsign with ⟨rfl, -, rfl, -⟩ | ⟨rfl, -, rfl, -⟩ <;>
        rw [if_neg (by rw [isWordByte_eq_false (by decide)]; simp)] <;> rfl
    have hboth : stepAll s [sign, next] = { t.endWord with region := inside } := by
      rw [stepAll, List.foldl_cons, hfirst]
      rcases hsign with ⟨-, rfl, rfl, rfl⟩ | ⟨-, rfl, rfl, rfl⟩ <;> rfl
    rw [hboth]
    exact ⟨rfl, (line_endWord t).trans hline, (lineQuoted_endWord t).trans hquoted⟩

/-- A character of the code brings the scanner in front of the next one. -/
theorem Stands.inCode (hplain : Plain s.rules) (h : Stands s (c :: cs) l .nothing)
    (hopen : ¬ opensQuote s.rules c = true) (hdash : c = '-' → cs.head? ≠ some '-')
    (hslash : c = '/' → cs.head? ≠ some '*') :
    Stands (s.step c).1 cs (l.step (c, .code)) .nothing := by
  cases h with
  | @nothing t hregion hrules hline hquoted hdone hstep =>
    rw [Bool.not_eq_true] at hopen
    rw [hstep c rfl]
    exact stands_stepNormal (hrules.symm ▸ hplain) hregion hline hquoted (hrules.symm ▸ hopen) hdash
      hslash

theorem Stands.endsLineComment (h : Stands s ('\n' :: cs) l .lineComment) :
    Stands (s.step '\n').1 cs (l.step ('\n', .code)) .nothing := by
  cases h with
  | lineComment hregion hline hquoted =>
    have hstep : s.step '\n' = ({ s with region := .normal } : Scanner).endLine := by
      simp only [step, hregion, if_true]
    rw [hstep]
    exact stands_endLine rfl .code

theorem Stands.opensQuote (h : Stands s (c :: cs) l .nothing) (hopen : opensQuote s.rules c = true) :
    Stands (s.step c).1 cs (l.step (c, .quoted)) (.quote (closing c)) := by
  cases h with
  | @nothing t hregion hrules hline hquoted hdone hstep =>
    rw [← hrules] at hopen
    have hopen' : Statement.opensQuote t.endWord.rules c = true := by rwa [rules_endWord]
    obtain ⟨hword, hsymbol⟩ := stepSymbol_of_opensQuote hopen'
    have hkeep : t.isWordByte c = false := isWordByte_eq_false (extendsWord_of_opensQuote hopen)
    have hnewline : c ≠ '\n' := by
      rintro rfl
      exact absurd hopen (by simp [Statement.opensQuote])
    have hclosing : closing c ≠ '\n' := by
      unfold closing
      split
      · decide
      · exact hnewline
    have henter : s.step c = (t.endWord.enterQuote (closing c), false) := by
      rw [hstep c rfl, stepNormal, if_neg (by rw [hkeep]; simp), hsymbol]
    have hquote : l.step (c, .quoted) = { l with quoted := true } := by
      simp only [LineText.step, if_neg hnewline]
    rw [henter, hquote]
    exact .quote rfl hclosing ((line_endWord t).trans hline) rfl

/-- Surrounding a line comment the scanner waits for the line feed. -/
theorem Stands.inLineComment (h : Stands s (c :: cs) l .lineComment) (hc : c ≠ '\n') :
    Stands (s.step c).1 cs (l.step (c, .comment)) .lineComment := by
  cases h with
  | lineComment hregion hline hquoted =>
    have hstep : s.step c = (s, false) := by simp only [step, hregion, if_neg hc]
    have hsame : l.step (c, .comment) = l := if_neg hc
    rw [hstep, hsame]
    exact .lineComment hregion hline hquoted

theorem Stands.inBlockComment (h : Stands s (c :: cs) l .blockComment)
    (hclose : c = '*' → cs.head? ≠ some '/') :
    Stands (s.step c).1 cs (l.step (c, .comment)) .blockComment := by
  cases h with
  | blockComment hregion hline hquoted =>
    by_cases hstar : c = '*'
    · have hstep : s.step c = ({ s with region := .blockCommentStar }, false) := by
        rcases hregion with hregion | ⟨hregion, -⟩
        · simp only [step, hregion, if_pos hstar]
        · have hslash : c ≠ '/' := by simp [hstar]
          simp only [step, hregion, if_neg hslash, if_pos hstar]
          rw [← hregion]
      rw [hstep, LineText.step, if_neg (by simp [hstar])]
      exact .blockComment (.inr ⟨rfl, hclose hstar⟩) hline hquoted
    by_cases hnewline : c = '\n'
    · have hstep : s.step c = ({ s.resetLine false with region := .blockComment }, false) := by
        subst hnewline
        rcases hregion with hregion | ⟨hregion, -⟩ <;> simp [step, hregion, resetLine]
      rw [hstep, LineText.step, if_pos hnewline]
      exact .blockComment (.inl rfl) rfl rfl
    · have hstep : s.step c = ({ s with region := .blockComment }, false) := by
        rcases hregion with hregion | ⟨hregion, hslash⟩
        · simp only [step, hregion, if_neg hstar, if_neg hnewline]
          rw [← hregion]
        · have hslash' : c ≠ '/' := fun heq => hslash (congrArg some heq)
          simp only [step, hregion, if_neg hslash', if_neg hstar, if_neg hnewline]
      rw [hstep, LineText.step, if_neg hnewline]
      exact .blockComment (.inl rfl) hline hquoted

theorem Stands.closesComment (h : Stands s ('*' :: '/' :: cs) l .blockComment) :
    Stands (stepAll s ['*', '/']) cs l .nothing := by
  cases h with
  | blockComment hregion hline hquoted =>
    have hboth : stepAll s ['*', '/'] = { s with region := .normal } := by
      rcases hregion with hregion | ⟨hregion, -⟩ <;> simp [stepAll, step, hregion]
    rw [hboth]
    exact .of_normal rfl hline hquoted

theorem step_quote {closing : Char} (hplain : Plain s.rules) (hregion : s.region = .quote closing)
    (hc : c ≠ closing) : s.step c = (if c = '\n' then s.resetLine true else s, false) := by
  have hescape : ¬ (c = '\\' ∧ s.rules.backslashEscapes = true ∧
      (closing = '\x27' ∨ closing = '\x22')) := by simp [hplain.escapes]
  simp only [step, hregion, if_neg hc, if_neg hescape]
  split <;> rfl

/-- Surrounding a quote only the line matters, and a line feed leaves a fresh one that is quoted. -/
theorem Stands.inQuote {closing : Char} (hplain : Plain s.rules)
    (h : Stands s (c :: cs) l (.quote closing)) (hc : c ≠ closing) :
    Stands (s.step c).1 cs (l.step (c, .quoted)) (.quote closing) := by
  cases h with
  | quote hregion hclosing hline hquoted =>
    rw [step_quote hplain hregion hc, LineText.step]
    split
    case isTrue => exact .quote hregion hclosing rfl rfl
    case isFalse => exact .quote hregion hclosing hline hquoted

theorem Stands.closing_ne {closing : Char} (h : Stands s cs l (.quote closing)) :
    closing ≠ '\n' := by
  cases h with
  | quote _ hclosing => exact hclosing

/-- A doubled quote stays inside. -/
theorem Stands.doubled {closing : Char} (h : Stands s (closing :: closing :: cs) l (.quote closing)) :
    Stands (stepAll s [closing, closing]) cs
      ((l.step (closing, .quoted)).step (closing, .quoted)) (.quote closing) := by
  cases h with
  | quote hregion hclosing hline hquoted =>
    have hline' : (l.step (closing, .quoted)).step (closing, .quoted) = { l with quoted := true } := by
      simp only [LineText.step, if_neg hclosing]
    have hboth : stepAll s [closing, closing] = { s with region := .quote closing } := by
      simp [stepAll, step, hregion]
    rw [hboth, hline']
    exact .quote rfl hclosing hline hquoted

theorem Stands.closesQuote {closing d : Char} (h : Stands s (closing :: d :: cs) l (.quote closing))
    (hd : d ≠ closing) :
    Stands (s.step closing).1 (d :: cs) (l.step (closing, .quoted)) .nothing := by
  cases h with
  | quote hregion hclosing hline hquoted =>
    have hstep : s.step closing = ({ s with region := .quoteEnd closing }, false) := by
      simp only [step, hregion, if_true]
    rw [hstep, LineText.step, if_neg hclosing]
    refine .nothing (t := { s with region := .normal }) rfl rfl hline hquoted rfl fun e he => ?_
    obtain rfl := Option.some.inj (Option.mem_def.1 he)
    simp only [step, if_neg hd]

/-- The text `f` in front of a line feed is marked, and the scanner has come as far. -/
def GoesThrough (s : Scanner) (within : Surrounding) (l : LineText) (f : List Char) : Prop :=
  ∃ within' ms, markAll s.rules within (f ++ ['\n']) = ms ++ markAll s.rules within' ['\n'] ∧
    Stands (stepAll s f) ['\n'] (ms.foldl LineText.step l) within'

theorem rules_stepAll (s : Scanner) (cs : List Char) : (stepAll s cs).rules = s.rules := by
  induction cs generalizing s with
  | nil => rfl
  | cons c cs ih => exact (ih (s.step c).1).trans (rules_step s c)

/-- The part `front` of the text was marked first. -/
theorem GoesThrough.append {w w' : Surrounding} {front f : List Char} (ms : List (Char × Mark))
    (hmarks : markAll s.rules w (front ++ (f ++ ['\n'])) = ms ++ markAll s.rules w' (f ++ ['\n']))
    (hstands : Stands (stepAll s front) (f ++ ['\n']) (ms.foldl LineText.step l) w')
    (h : f ≠ [] → GoesThrough (stepAll s front) w' (ms.foldl LineText.step l) f) :
    GoesThrough s w l (front ++ f) := by
  have hrest : GoesThrough (stepAll s front) w' (ms.foldl LineText.step l) f := by
    by_cases hf : f = []
    · subst hf
      exact ⟨w', [], rfl, hstands⟩
    · exact h hf
  obtain ⟨w'', ms', hrest, hstands⟩ := hrest
  rw [rules_stepAll] at hrest
  refine ⟨w'', ms ++ ms', ?_, ?_⟩
  · rw [List.append_assoc, hmarks, hrest, List.append_assoc]
  · rw [List.foldl_append, stepAll, List.foldl_append]
    exact hstands

/-- One character is marked, and then what is left. -/
theorem GoesThrough.one {w w' : Surrounding} {f : List Char} {m : Mark} (hf : f ≠ [])
    (hcs : f ++ ['\n'] = c :: cs)
    (hmarks : markAll s.rules w (c :: cs) = (c, m) :: markAll s.rules w' cs)
    (hstands : Stands (s.step c).1 cs (l.step (c, m)) w')
    (h : ∀ {f'}, f' ≠ [] → (s.step c).1.rules = s.rules → f' ++ ['\n'] = cs →
      GoesThrough (s.step c).1 w' (l.step (c, m)) f') : GoesThrough s w l f := by
  obtain ⟨c', f', rfl⟩ := List.exists_cons_of_ne_nil hf
  obtain ⟨rfl, rfl⟩ := List.cons.inj hcs
  show GoesThrough s w l ([c'] ++ f')
  exact .append [(c', m)] hmarks hstands fun hne => h hne (rules_step s c') rfl

/-- Two characters are marked together, as the first one alone says nothing. -/
theorem GoesThrough.two {w w' : Surrounding} {f : List Char} {d : Char} {m : Mark} (hf : f ≠ [])
    (hd : d ≠ '\n') (hcs : f ++ ['\n'] = c :: d :: cs)
    (hmarks : markAll s.rules w (c :: d :: cs) = (c, m) :: (d, m) :: markAll s.rules w' cs)
    (hstands : Stands (stepAll s [c, d]) cs ((l.step (c, m)).step (d, m)) w')
    (h : ∀ {f'}, f' ≠ [] → (stepAll s [c, d]).rules = s.rules → f' ++ ['\n'] = cs →
      GoesThrough (stepAll s [c, d]) w' ((l.step (c, m)).step (d, m)) f') : GoesThrough s w l f := by
  obtain ⟨c', f', rfl⟩ := List.exists_cons_of_ne_nil hf
  obtain ⟨rfl, hrest⟩ := List.cons.inj hcs
  have hf' : f' ≠ [] := by
    rintro rfl
    exact hd (List.cons.inj hrest).1.symm
  obtain ⟨d', f'', rfl⟩ := List.exists_cons_of_ne_nil hf'
  obtain ⟨rfl, rfl⟩ := List.cons.inj hrest
  show GoesThrough s w l ([c', d'] ++ f'')
  exact .append [(c', m), (d', m)] hmarks hstands fun hne => h hne (rules_stepAll s _) rfl

theorem head?_ne {d : Char} (h : ∀ rest, cs = d :: rest → False) : cs.head? ≠ some d := by
  intro hhead
  obtain ⟨rest, rfl⟩ := List.head?_eq_some_iff.1 hhead
  exact h rest rfl

/-- A scanner goes through every text as it is marked. -/
theorem through_of_stands (hplain : Plain s.rules) {w : Surrounding} {f : List Char} (hf : f ≠ [])
    (h : Stands s (f ++ ['\n']) l w) : GoesThrough s w l f := by
  generalize hrules : s.rules = rules at hplain
  generalize hcs : f ++ ['\n'] = cs at h
  fun_induction markAll rules w cs generalizing s f l
  all_goals subst hrules
  case case1 => exact absurd hcs (by simp)
  case case2 cs ih =>
    obtain ⟨hregion, hline, hquoted⟩ := h.opener (.inl ⟨rfl, rfl, rfl, rfl⟩)
    have hnext : Stands (stepAll s ['-', '-']) cs l .lineComment :=
      .lineComment hregion hline hquoted
    exact .two hf (by decide) hcs rfl hnext fun hf' hrules hcs' => ih hf' hrules hcs' hnext
  case case3 cs ih =>
    obtain ⟨hregion, hline, hquoted⟩ := h.opener (.inr ⟨rfl, rfl, rfl, rfl⟩)
    have hnext : Stands (stepAll s ['/', '*']) cs l .blockComment :=
      .blockComment (.inl hregion) hline hquoted
    exact .two hf (by decide) hcs rfl hnext fun hf' hrules hcs' => ih hf' hrules hcs' hnext
  case case4 c cs hdash hslash hopen ih =>
    have hnext := h.opensQuote hopen
    refine .one hf hcs ?_ hnext fun hf' hrules hcs' => ih hf' hrules hcs' hnext
    rw [markAll_outside hdash hslash, if_pos hopen]
  case case5 c cs hdash hslash hopen ih =>
    have hnext := h.inCode hplain hopen (fun hc => head?_ne (hdash · hc))
      fun hc => head?_ne (hslash · hc)
    refine .one hf hcs ?_ hnext fun hf' hrules hcs' => ih hf' hrules hcs' hnext
    rw [markAll_outside hdash hslash, if_neg hopen]
  case case6 cs ih =>
    exact .one hf hcs rfl h.endsLineComment fun hf' hrules hcs' =>
      ih hf' hrules hcs' h.endsLineComment
  case case7 c cs hc ih =>
    have hnext := h.inLineComment hc
    exact .one hf hcs (markAll_lineComment hc) hnext fun hf' hrules hcs' =>
      ih hf' hrules hcs' hnext
  case case8 cs ih =>
    exact .two hf (by decide) hcs rfl h.closesComment fun hf' hrules hcs' =>
      ih hf' hrules hcs' h.closesComment
  case case9 c cs hclose ih =>
    have hnext := h.inBlockComment fun hc => head?_ne (hclose · hc)
    exact .one hf hcs (markAll_blockComment hclose) hnext fun hf' hrules hcs' =>
      ih hf' hrules hcs' hnext
  case case10 closing c =>
    have hlength := congrArg List.length hcs
    exact absurd hlength (by simp [hf])
  case case11 closing cs ih =>
    have hclosing : closing ≠ '\n' := h.closing_ne
    have hnext := h.doubled
    refine .two hf hclosing hcs ?_ hnext fun hf' hrules hcs' => ih hf' hrules hcs' hnext
    rw [markAll_quote, if_pos rfl, if_pos rfl]
  case case12 closing d cs hd ih =>
    have hnext := h.closesQuote hd
    refine .one hf hcs ?_ hnext fun hf' hrules hcs' => ih hf' hrules hcs' hnext
    rw [markAll_quote, if_pos rfl, if_neg hd]
  case case13 closing c d cs hc ih =>
    have hnext := h.inQuote hplain hc
    refine .one hf hcs ?_ hnext fun hf' hrules hcs' => ih hf' hrules hcs' hnext
    rw [markAll_quote, if_neg hc]

/-- What the mark of a line feed says of the scanner in front of it. -/
theorem Stands.exists_mark (hplain : Plain s.rules) {w : Surrounding} (h : Stands s ['\n'] l w) :
    ∃ m, markAll s.rules w ['\n'] = [('\n', m)] ∧ (s.unfinished? = none ↔ m = .code) ∧
      ((s.step '\n').2 = true ↔ m = .code ∧ l.Ends s.rules) := by
  cases h with
  | @nothing t hregion hrules hline hquoted hdone hstep =>
    have hopen : Statement.opensQuote s.rules '\n' = false := by simp [Statement.opensQuote]
    have hlast : markAll s.rules .nothing ['\n'] = [('\n', .code)] := by
      rw [markAll_outside (by simp) (by simp), hopen]
      rfl
    have hcut := cut_endLine_iff (s := t.endWord) ((line_endWord t).trans hline)
      ((lineQuoted_endWord t).trans hquoted)
    refine ⟨.code, hlast, by simp [hdone], ?_⟩
    rw [hstep '\n' rfl, stepNormal_newline, hcut, rules_endWord, hrules]
    simp
  | lineComment hregion hline hquoted =>
    have hcut := cut_endLine_iff (s := { s with region := .normal }) hline hquoted
    refine ⟨.code, rfl, by simp [Scanner.unfinished?, hregion], ?_⟩
    simp only [Scanner.step, hregion, if_true]
    rw [hcut]
    simp
  | blockComment hregion hline hquoted =>
    refine ⟨.comment, rfl, ?_, ?_⟩
    · rcases hregion with hregion | ⟨hregion, -⟩ <;> simp [Scanner.unfinished?, hregion]
    · rcases hregion with hregion | ⟨hregion, -⟩ <;> simp [Scanner.step, hregion]
  | @quote closing hregion hclosing hline hquoted =>
    refine ⟨.quoted, rfl, by simp [Scanner.unfinished?, hregion], ?_⟩
    rw [step_quote hplain hregion hclosing.symm]
    simp

/-- What the marks say of the end of a text: whether it lies inside a region, and whether a line feed
there cuts. -/
theorem exists_marks_concat (hplain : Plain s.rules) {w : Surrounding} {f : List Char}
    (h : Stands s (f ++ ['\n']) l w) : ∃ ms m, markAll s.rules w (f ++ ['\n']) = ms ++ [('\n', m)] ∧
      ((stepAll s f).unfinished? = none ↔ m = .code) ∧
      (((stepAll s f).step '\n').2 = true ↔ m = .code ∧ (ms.foldl LineText.step l).Ends s.rules) := by
  have hthrough : GoesThrough s w l f := by
    by_cases hf : f = []
    · subst hf
      exact ⟨w, [], rfl, h⟩
    · exact through_of_stands hplain hf h
  obtain ⟨w', ms, hmarks, hstands⟩ := hthrough
  have hrules := rules_stepAll s f
  obtain ⟨m, hlast, hdone, hcut⟩ := hstands.exists_mark (hrules.symm ▸ hplain)
  rw [hrules] at hlast hcut
  exact ⟨ms, m, by rw [hmarks, hlast], hdone, hcut⟩

/-! ### The text of a line -/

/-- The marked characters behind the last line feed. -/
def lineOf (ms : List (Char × Mark)) : List (Char × Mark) :=
  (ms.reverse.takeWhile fun m => m.1 != '\n').reverse

/-- The code among marked characters. -/
def codeOf (ms : List (Char × Mark)) : List Char := (ms.filter fun m => m.2 = .code).map (·.1)

/-- A line without the blanks around it. -/
def trimPlain (line : List Char) : List Char :=
  ((line.dropWhile (· ∈ plainBlanks)).reverse.dropWhile (· ∈ plainBlanks)).reverse

theorem foldl_step_of_line {ms : List (Char × Mark)} (hms : ∀ m ∈ ms, m.1 ≠ '\n') :
    ms.foldl LineText.step l =
      ⟨((codeOf ms).filter (· ∉ plainBlanks)).reverse ++ l.code,
        l.quoted || ms.any fun m => m.2 = .quoted⟩ := by
  induction ms generalizing l with
  | nil => simp [codeOf]
  | cons m ms ih =>
    obtain ⟨hm, hms⟩ := List.forall_mem_cons.1 hms
    rw [List.foldl_cons, ih hms, LineText.step, if_neg hm]
    rcases m with ⟨c, _ | _ | _⟩
    · by_cases hc : c ∈ plainBlanks <;> simp [codeOf, hc]
    · simp [codeOf]
    · simp [codeOf]

/-- Only the last line of a text counts. -/
theorem foldl_step_eq_lineOf (ms : List (Char × Mark)) :
    ms.foldl LineText.step {} = (lineOf ms).foldl LineText.step {} := by
  have hparts : ms = (ms.reverse.dropWhile fun m => m.1 != '\n').reverse ++ lineOf ms := by
    rw [lineOf, ← List.reverse_append, List.takeWhile_append_dropWhile, List.reverse_reverse]
  rw [congrArg (·.foldl LineText.step {}) hparts, List.foldl_append]
  cases hrest : ms.reverse.dropWhile fun m => m.1 != '\n' with
  | nil => rfl
  | cons m rest =>
    have hm : m.1 = '\n' := by
      have hhead := List.head?_dropWhile_not (fun m : Char × Mark => m.1 != '\n') ms.reverse
      rw [hrest] at hhead
      simpa using hhead
    have hstep : (rest.reverse.foldl LineText.step {}).step m = {} := if_pos hm
    rw [List.reverse_cons, List.foldl_append, List.foldl_cons, List.foldl_nil, hstep]

theorem ne_newline_of_mem_lineOf {ms : List (Char × Mark)} {m : Char × Mark} (hm : m ∈ lineOf ms) :
    m.1 ≠ '\n' := by
  rw [lineOf, List.mem_reverse] at hm
  simpa using List.mem_takeWhile_imp hm

theorem exists_append_trimPlain (line : List Char) : ∃ front back, line = front ++ trimPlain line ++ back ∧
    (∀ c ∈ front, c ∈ plainBlanks) ∧ ∀ c ∈ back, c ∈ plainBlanks := by
  have hfront := List.takeWhile_append_dropWhile (l := line) (p := (· ∈ plainBlanks))
  have hback := List.takeWhile_append_dropWhile (l := (line.dropWhile (· ∈ plainBlanks)).reverse)
    (p := (· ∈ plainBlanks))
  refine ⟨line.takeWhile (· ∈ plainBlanks),
    ((line.dropWhile (· ∈ plainBlanks)).reverse.takeWhile (· ∈ plainBlanks)).reverse, ?_, ?_, ?_⟩
  · rw [trimPlain, List.append_assoc, ← List.reverse_append, hback, List.reverse_reverse, hfront]
  · exact fun c hc => by simpa using List.mem_takeWhile_imp hc
  · exact fun c hc => by simpa using List.mem_takeWhile_imp (List.mem_reverse.1 hc)

theorem filter_blanks {cs : List Char} (h : ∀ c ∈ cs, c ∈ plainBlanks) :
    cs.filter (· ∉ plainBlanks) = [] := by
  rw [List.filter_eq_nil_iff]
  intro c hc
  simpa using h c hc

theorem filter_trimPlain (line : List Char) :
    (trimPlain line).filter (· ∉ plainBlanks) = line.filter (· ∉ plainBlanks) := by
  obtain ⟨front, back, hline, hfront, hback⟩ := exists_append_trimPlain line
  rw [congrArg (·.filter (· ∉ plainBlanks)) hline, List.filter_append, List.filter_append,
    filter_blanks hfront, filter_blanks hback, List.nil_append, List.append_nil]

theorem trimPlain_of_parts {front back core : List Char} (hfront : ∀ c ∈ front, c ∈ plainBlanks)
    (hback : ∀ c ∈ back, c ∈ plainBlanks) (hfirst : ∀ c ∈ core.head?, c ∉ plainBlanks)
    (hlast : ∀ c ∈ core.getLast?, c ∉ plainBlanks) (hne : core ≠ []) :
    trimPlain (front ++ core ++ back) = core := by
  have hdrop : ∀ {x y : List Char}, (∀ c ∈ x, c ∈ plainBlanks) → (∀ c ∈ y.head?, c ∉ plainBlanks) →
      y ≠ [] → (x ++ y).dropWhile (· ∈ plainBlanks) = y := by
    intro x y hx hy hne
    obtain ⟨c, y, rfl⟩ := List.exists_cons_of_ne_nil hne
    rw [List.dropWhile_append_of_pos (by simpa using hx), List.dropWhile_cons_of_neg]
    simpa using hy c rfl
  have hhead : ∀ c ∈ (core ++ back).head?, c ∉ plainBlanks := by
    rw [List.head?_append_of_ne_nil _ hne]
    exact hfirst
  have htail : ∀ c ∈ core.reverse.head?, c ∉ plainBlanks := by rwa [List.head?_reverse]
  rw [trimPlain, List.append_assoc, hdrop hfront hhead (by simp [hne]), List.reverse_append,
    hdrop (by simpa using hback) htail (by simpa using hne), List.reverse_reverse]

theorem filter_eq_nil {cs : List Char} (h : cs.filter (· ∉ plainBlanks) = []) :
    ∀ c ∈ cs, c ∈ plainBlanks := by
  intro c hc
  simpa using List.filter_eq_nil_iff.1 h c hc

/-- A line whose only character besides blanks is `c` is `c` with blanks around it. -/
theorem filter_eq_singleton_iff {line : List Char} :
    line.filter (· ∉ plainBlanks) = [c] ↔ trimPlain line = [c] ∧ c ∉ plainBlanks := by
  constructor
  · intro h
    obtain ⟨front, back, rfl, hfront, hc, hback⟩ := List.filter_eq_cons_iff.1 h
    have hc' : c ∉ plainBlanks := by simpa using hc
    refine ⟨?_, hc'⟩
    rw [List.append_cons]
    exact trimPlain_of_parts (by simpa using hfront) (filter_eq_nil hback) (by simpa using hc')
      (by simpa using hc') (by simp)
  · rintro ⟨htrim, hc⟩
    rw [← filter_trimPlain, htrim]
    simp [hc]

theorem filter_eq_pair_iff {line : List Char} {d : Char} :
    line.filter (· ∉ plainBlanks) = [c, d] ↔ c ∉ plainBlanks ∧ d ∉ plainBlanks ∧
      ∃ gap, (∀ e ∈ gap, e ∈ plainBlanks) ∧ trimPlain line = c :: (gap ++ [d]) := by
  constructor
  · intro h
    obtain ⟨front, rest, rfl, hfront, hc, hrest⟩ := List.filter_eq_cons_iff.1 h
    obtain ⟨gap, back, rfl, hgap, hd, hback⟩ := List.filter_eq_cons_iff.1 hrest
    have hc' : c ∉ plainBlanks := by simpa using hc
    have hd' : d ∉ plainBlanks := by simpa using hd
    refine ⟨hc', hd', gap, by simpa using hgap, ?_⟩
    have hline : front ++ c :: (gap ++ d :: back) = front ++ c :: (gap ++ [d]) ++ back := by simp
    rw [hline]
    refine trimPlain_of_parts (by simpa using hfront) (filter_eq_nil hback) (by simpa using hc') ?_
      (by simp)
    rw [← List.cons_append, List.getLast?_concat]
    simpa using hd'
  · rintro ⟨hc, hd, gap, hgap, htrim⟩
    rw [← filter_trimPlain, htrim, List.filter_cons_of_pos (by simpa using hc), List.filter_append,
      filter_blanks hgap]
    simp [hd]

/-- Whether a line that holds this code is a terminator. Blanks between the letters of `GO` do not
count. -/
def EndsAlone (rules : LexicalRules) (code : List Char) : Prop :=
  (rules.slashLines = true ∧ trimPlain code = ['/']) ∨
    (rules.goLines = true ∧ ∃ g o gap, trimPlain code = g :: (gap ++ [o]) ∧
      (∀ c ∈ gap, c ∈ plainBlanks) ∧ upper [g, o] = ['G', 'O'])

theorem not_mem_of_upper {g o : Char} (h : upper [g, o] = ['G', 'O']) :
    g ∉ plainBlanks ∧ o ∉ plainBlanks := by
  have hpair : g.toUpper = 'G' ∧ o.toUpper = 'O' := by simpa [upper] using h
  have hne : ∀ c ∈ plainBlanks, c.toUpper ≠ 'G' ∧ c.toUpper ≠ 'O' := by decide
  exact ⟨fun hg => (hne g hg).1 hpair.1, fun ho => (hne o ho).2 hpair.2⟩

theorem endsAlone_iff {code : List Char} :
    EndsAlone rules code ↔ (rules.slashLines = true ∧ code.filter (· ∉ plainBlanks) = ['/']) ∨
      (rules.goLines = true ∧ upper (code.filter (· ∉ plainBlanks)) = ['G', 'O']) := by
  have hslash : trimPlain code = ['/'] ↔ code.filter (· ∉ plainBlanks) = ['/'] := by
    rw [filter_eq_singleton_iff]
    exact (and_iff_left (by decide)).symm
  rw [EndsAlone, hslash]
  refine or_congr_right (and_congr_right fun _ => ⟨?_, fun h => ?_⟩)
  · rintro ⟨g, o, gap, htrim, hgap, hupper⟩
    obtain ⟨hg, ho⟩ := not_mem_of_upper hupper
    rwa [filter_eq_pair_iff.2 ⟨hg, ho, gap, hgap, htrim⟩]
  · obtain ⟨g, o, hpair⟩ : ∃ g o, code.filter (· ∉ plainBlanks) = [g, o] := by
      have hlength := congrArg List.length h
      rw [upper, List.length_map] at hlength
      exact List.length_eq_two.1 hlength
    rw [hpair] at h
    obtain ⟨-, -, gap, hgap, htrim⟩ := filter_eq_pair_iff.1 hpair
    exact ⟨g, o, gap, htrim, hgap, h⟩

/-- The line of a marked text is a terminator if it holds no quoted character and its code is one. -/
theorem ends_foldl_iff (ms : List (Char × Mark)) : (ms.foldl LineText.step {}).Ends rules ↔
    (∀ m ∈ lineOf ms, m.2 ≠ .quoted) ∧ EndsAlone rules (codeOf (lineOf ms)) := by
  rw [foldl_step_eq_lineOf, foldl_step_of_line fun m => ne_newline_of_mem_lineOf, endsAlone_iff,
    LineText.Ends]
  have hquoted : (false || (lineOf ms).any fun m => m.2 = .quoted) = false ↔
      ∀ m ∈ lineOf ms, m.2 ≠ .quoted := by simp
  refine and_congr hquoted ?_
  have hslash : ∀ cs : List Char, cs.reverse ++ [] = ['/'] ↔ cs = ['/'] := by
    intro cs
    rw [List.append_nil, List.reverse_eq_iff]
    rfl
  rw [hslash, List.append_nil, List.reverse_reverse]

/-- The scanner behind single bytes. -/
theorem foldl_feedByte_eq_stepAll (s : Scanner) (bytes : List UInt8) (cut : Bool) :
    (bytes.foldl feedByte (s, cut)).1 = stepAll s (bytes.map fun b => Char.ofNat b.toNat) := by
  induction bytes generalizing s cut with
  | nil => rfl
  | cons b bytes ih => exact ih _ _

/-- The marked characters of a script and of a line feed behind it. -/
def markedBytes (rules : LexicalRules) (bytes : List UInt8) : List (Char × Mark) :=
  markAll rules .nothing (bytes.map (fun b => Char.ofNat b.toNat) ++ ['\n'])

/-- A line feed ends a statement if and only if it lies in no quoted region and in no block comment,
no character of its line is quoted, and the code of the line is a terminator. -/
theorem feed_newline_iff {d : Dialect} (hd : d ∈ plainDialects) (bytes : List UInt8) :
    ((scan d.rules bytes).scanner.feed 10).2 = true ↔
      (markedBytes d.rules bytes).getLast? = some ('\n', .code) ∧
        (∀ m ∈ lineOf (markedBytes d.rules bytes).dropLast, m.2 ≠ .quoted) ∧
        EndsAlone d.rules (codeOf (lineOf (markedBytes d.rules bytes).dropLast)) := by
  have hstands : Stands (fresh d.rules) (bytes.map (fun b => Char.ofNat b.toNat) ++ ['\n']) {}
      .nothing := .of_normal rfl rfl rfl
  obtain ⟨ms, m, hmarks, -, hcut⟩ := exists_marks_concat (plain_of_mem hd) hstands
  have hmarked : markedBytes d.rules bytes = ms ++ [('\n', m)] := hmarks
  have hscanner : (scan d.rules bytes).scanner = stepAll (fresh d.rules)
      (bytes.map fun b => Char.ofNat b.toNat) := by
    rw [(scanner_scan d.rules bytes).1, foldl_feedByte_eq_stepAll]
  have hlast : some ('\n', m) = some ('\n', Mark.code) ↔ m = .code := by simp
  rw [hmarked, List.getLast?_concat, List.dropLast_concat, hscanner, hlast, ← ends_foldl_iff]
  exact hcut

/-- Blanks between the letters of `GO` go unseen. -/
theorem feed_newline_iff_spread :
    ((scan Dialect.sqlServer.rules (encode "SELECT 1\nG O -- x".toList)).scanner.feed 10).2 = true ∧
      ((scan Dialect.oracle.rules (encode "SELECT '\n/".toList)).scanner.feed 10).2 = false := by
  refine ⟨(feed_newline_iff (d := .sqlServer) (by decide) _).2 ⟨?_, ?_, ?_⟩, ?_⟩
  · decide +kernel
  · decide +kernel
  · refine .inr ⟨rfl, 'G', 'O', [' '], ?_, by decide, by decide⟩
    decide +kernel
  · rw [← Bool.not_eq_true, feed_newline_iff (d := .oracle) (by decide)]
    exact fun h => absurd h.1 (by decide +kernel)

end DdlBridge.Statement
