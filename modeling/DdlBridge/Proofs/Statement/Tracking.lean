import DdlBridge.Proofs.Statement.Nesting
import DdlBridge.Proofs.Statement.Reading
import DdlBridge.Proofs.Text.LetterCase

/-!
# What a scanner counts

A scanner counts blocks word by word and may misread a `CASE` or a `BEGIN` (`Misread`). Until it
does, it counts what a reader of the nesting counts (`exact_run`); from then on it counts less
(`lags_run`).
-/

namespace DdlBridge.Statement

open Scanner Text

variable {rules : LexicalRules} {s : Scanner}

/-! ### Words as a scanner keeps them -/

/-- The text a scanner has for a word. -/
def spoken (cs : List Char) : String :=
  if maxWord < (cs.flatMap wordBytes).length then ""
  else String.ofList ((cs.flatMap wordBytes).map Char.toUpper)

/-- The scanner that has a word on its line. -/
def wordOnLine (s : Scanner) (cs : List Char) : Scanner :=
  { s with content := true, line := (cs.flatMap wordBytes).reverse ++ s.line }

theorem flatMap_wordBytes_ne_nil {cs : List Char} (hcs : cs ≠ []) : cs.flatMap wordBytes ≠ [] := by
  cases cs with
  | nil => exact absurd rfl hcs
  | cons c cs => simp [wordBytes_ne_nil]

theorem take_word (hs : Settled s) {cs : List Char} (hcs : cs ≠ []) : take s (.word cs) =
    ({ (wordOnLine s cs).onWord (spoken cs) with previous := .word (spoken cs) }, false) := by
  have hbytes := flatMap_wordBytes_ne_nil hcs
  have hword : (pushWord s (cs.flatMap wordBytes)).word.isEmpty = false := by
    simp [pushWord, hs.word, hbytes]
  have htext : (pushWord s (cs.flatMap wordBytes)).wordText = spoken cs := by
    simp [wordText, spoken, pushWord, hs.word]
  have hbare : ({ pushWord s (cs.flatMap wordBytes) with word := [] } : Scanner) = wordOnLine s cs := by
    simp [pushWord, wordOnLine, hs.word, hbytes]
  rw [take, endWord, hword, htext, hbare]
  rfl

/-- In upper case the bytes of a text are an ASCII text when the text itself is. -/
theorem map_toUpper_bytes_eq_iff {cs ws : List Char} (hws : ∀ c ∈ ws, c.toNat < 128) :
    (cs.flatMap wordBytes).map Char.toUpper = ws ↔ upper cs = ws := by
  by_cases hcs : ∀ c ∈ cs, c.toNat < 128
  · have hbytes : cs.flatMap wordBytes = cs := by
      clear hws
      induction cs with
      | nil => rfl
      | cons c cs ih =>
        rw [List.flatMap_cons, wordBytes_of_lt (hcs c List.mem_cons_self),
          ih fun d hd => hcs d (List.mem_cons_of_mem _ hd)]
        rfl
    rw [hbytes]
    rfl
  · obtain ⟨c, hmem, hc⟩ : ∃ c ∈ cs, 128 ≤ c.toNat := by
      simpa using hcs
    refine ⟨fun h => ?_, fun h => ?_⟩
    · obtain ⟨ch, hch⟩ := List.exists_mem_of_ne_nil _ (wordBytes_ne_nil c)
      have hle := le_of_mem_wordBytes hc hch
      have hin : ch.toUpper ∈ ws := by
        rw [← h]
        exact List.mem_map_of_mem (List.mem_flatMap.2 ⟨c, hmem, hch⟩)
      rw [toUpper_of_le hle] at hin
      exact absurd (hws ch hin) (Nat.not_lt.2 hle)
    · have hin : c.toUpper ∈ ws := by
        rw [← h]
        exact List.mem_map_of_mem hmem
      rw [toUpper_of_le hc] at hin
      exact absurd (hws c hin) (Nat.not_lt.2 hc)

/-- A word short enough for a scanner to know, and not empty. -/
def isShort (w : String) : Bool :=
  !w.toList.isEmpty && w.toList.length ≤ maxWord && w.toList.all (·.toNat < 128)

/-- The words that a scanner reacts to. -/
def knownWords : List String := blockWords ++ nameWords ++ ["CREATE", "TRIGGER", "PROCEDURE"]

theorem isShort_of_known {w : String} (hw : w ∈ knownWords) : isShort w = true := by
  have hall : knownWords.all isShort = true := by decide
  exact List.all_eq_true.1 hall w hw

theorem spoken_eq_iff_of_short {w : String} (hshort : isShort w = true) (cs : List Char) :
    spoken cs = w ↔ (Lexeme.word cs).keyword = w := by
  simp only [isShort, Bool.and_eq_true, Bool.not_eq_true', decide_eq_true_eq, List.all_eq_true] at hshort
  obtain ⟨⟨hne, hlength⟩, hascii⟩ := hshort
  have hbytes : (cs.flatMap wordBytes).map Char.toUpper = w.toList ↔ upper cs = w.toList :=
    map_toUpper_bytes_eq_iff hascii
  have hkeyword : (Lexeme.word cs).keyword = w ↔ upper cs = w.toList := by
    rw [Lexeme.keyword, ← String.toList_inj, String.toList_ofList]
  rw [hkeyword, ← hbytes, spoken]
  split
  case isTrue hlong =>
    refine ⟨fun h => ?_, fun h => ?_⟩
    · rw [← h] at hne
      exact absurd hne (by decide)
    · have hsame := congrArg List.length h
      rw [List.length_map] at hsame
      omega
  case isFalse => rw [← String.toList_inj, String.toList_ofList]

/-- A scanner knows these words when it reads them. -/
theorem spoken_eq_iff {w : String} (hw : w ∈ knownWords) (cs : List Char) :
    spoken cs = w ↔ (Lexeme.word cs).keyword = w :=
  spoken_eq_iff_of_short (isShort_of_known hw) cs

theorem spoken_mem_iff_of_short {ws : List String} (hws : ws.all isShort = true) (cs : List Char) :
    spoken cs ∈ ws ↔ (Lexeme.word cs).keyword ∈ ws := by
  rw [List.all_eq_true] at hws
  constructor
  · intro h
    rwa [(spoken_eq_iff_of_short (hws _ h) cs).1 rfl]
  · intro h
    rwa [(spoken_eq_iff_of_short (hws _ h) cs).2 rfl]

theorem spoken_mem_iff {ws : List String} (hws : ∀ w ∈ ws, w ∈ knownWords) (cs : List Char) :
    spoken cs ∈ ws ↔ (Lexeme.word cs).keyword ∈ ws :=
  spoken_mem_iff_of_short (List.all_eq_true.2 fun w hw => isShort_of_known (hws w hw)) cs

/-! ### Blocks that words open and close -/

/-- Whether a `BEGIN` behind this token starts a block. -/
def admits : Previous → Bool
  | .start => false
  | .punct c => c == ')' || c == ';' || c == ':'
  | .quoted => true
  | .word w => w ∉ nameWords

/-- A statement that may hold blocks and whose first words have been read. -/
structure Started (s : Scanner) : Prop where
  head : mayHoldBlock s.head = true
  words : 0 < s.words
  content : s.content = true

theorem namesRoutine_append {ws : List String} (h : namesRoutine ws = true) (ws' : List String) :
    namesRoutine (ws ++ ws') = true := by
  induction ws with
  | nil => exact absurd h (by simp [namesRoutine])
  | cons w ws ih =>
    rw [List.cons_append]
    unfold namesRoutine at h ⊢
    split at h
    case isTrue hroutine => rw [if_pos hroutine]
    case isFalse hroutine =>
      rw [if_neg hroutine]
      split at h
      case isTrue => exact absurd h (by simp)
      case isFalse hplain =>
        rw [if_neg hplain]
        exact ih h

theorem mayHoldBlock_append {ws : List String} (h : mayHoldBlock ws = true) (ws' : List String) :
    mayHoldBlock (ws ++ ws') = true := by
  unfold mayHoldBlock at h
  split at h
  case h_4 => exact namesRoutine_append h ws'
  case h_5 => exact namesRoutine_append h ws'
  case h_6 => exact absurd h (by simp)
  all_goals rfl

theorem opensBlock_noteWord (hs : Started s) (w : String) :
    (s.noteWord w).opensBlock = (s.parens == 0 && admits s.previous) := by
  have hwords : decide (2 ≤ (s.noteWord w).words) = true := by
    have hpos := hs.words
    refine decide_eq_true ?_
    show 2 ≤ s.words + 1
    omega
  have hhead : mayHoldBlock (s.noteWord w).head = true := by
    simp only [noteWord]
    split
    · exact mayHoldBlock_append hs.head [w]
    · exact hs.head
  unfold opensBlock
  rw [hwords, hhead, Bool.or_true, Bool.true_and, Bool.and_true]
  rfl

theorem onWord_of_suffix {w : String} (hpending : s.pendingEnd = true) (hw : w ∈ endSuffixes) :
    s.onWord w = { s with pendingEnd := false } := by
  rw [onWord, if_pos hpending]
  exact if_pos hw

theorem onWord_case (hpending : s.pendingEnd = true) : s.onWord "CASE" = s.settleEnd := by
  rw [onWord, if_pos hpending, settleEnd, if_pos hpending]
  rfl

theorem onWord_of_not {w : String}
    (h : ¬ (s.pendingEnd = true ∧ (w ∈ endSuffixes ∨ w = "CASE"))) :
    s.onWord w = s.settleEnd.countWord w := by
  unfold onWord
  by_cases hpending : s.pendingEnd = true
  · have hw := not_or.1 fun hw => h ⟨hpending, hw⟩
    rw [if_pos hpending]
    dsimp only
    rw [if_neg hw.1, if_neg hw.2, settleEnd, if_pos hpending]
    rfl
  · rw [if_neg hpending, settleEnd, if_neg hpending]
    rw [Bool.not_eq_true] at hpending
    rw [← hpending]

theorem depth_countWord (hslash : s.rules.slashLines = false) (w : String) :
    (s.countWord w).depth =
      if w = "CASE" ∨ (w = "BEGIN" ∧ (s.noteWord w).opensBlock = true) then s.depth + 1
      else s.depth := by
  simp [countWord, nestWord, noteWord, hslash]

theorem pendingEnd_countWord (hslash : s.rules.slashLines = false) (w : String) :
    (s.countWord w).pendingEnd = (s.pendingEnd || (w == "END" && s.depth != 0)) := by
  simp [countWord, nestWord, noteWord, hslash]

/-! ### Seeing what is there -/

/-- Whether a `BEGIN` behind the lexeme starts a block. -/
def Lexeme.admitsBlock (rules : LexicalRules) : Lexeme → Bool
  | punct c => c == ')' || c == ';' || c == ':' || (c == '$' && rules.dollarQuotes)
  | word cs => (word cs).keyword ∉ nameWords
  | _ => true

/-- The scanner knows the current line. -/
def OnLine (line : Option (List Char)) (s : Scanner) : Prop :=
  match line with
  | none => s.lineQuoted = true
  | some cs => s.lineQuoted = false ∧ s.line = (cs.flatMap wordBytes).reverse

/-- The scanner knows what a reader knows, apart from the nesting. -/
structure Sees (rules : LexicalRules) (c : Context) (s : Scanner) : Prop where
  settled : Settled s
  under : s.rules = rules
  unit : s.storedUnit = false
  parens : s.parens = c.parens
  previous : admits s.previous = c.last.any (·.admitsBlock rules)
  line : OnLine c.line s

/-- Behind `c` comes the end of a line that holds only `GO`. -/
structure GoLine (rules : LexicalRules) (c : Context) (l : Lexeme) : Prop where
  goLines : rules.goLines = true
  newline : l = .blank '\n'
  line : ∃ cs, c.line = some cs ∧ upper cs = ['G', 'O']

variable {c : Context} {l : Lexeme}

theorem OnLine.push {line : Option (List Char)} (h : OnLine line s) {t : Scanner} {cs : List Char}
    (hquoted : t.lineQuoted = s.lineQuoted)
    (hline : t.line = (cs.flatMap wordBytes).reverse ++ s.line) : OnLine (line.map (· ++ cs)) t := by
  cases line with
  | none => exact hquoted.trans h
  | some front =>
    refine ⟨hquoted.trans h.1, ?_⟩
    rw [hline, h.2, List.flatMap_append, List.reverse_append]

theorem isTerminatorLine_iff (hslash : rules.slashLines = false) (h : Sees rules c s) :
    s.isTerminatorLine = true ↔ GoLine rules c (.blank '\n') := by
  have hline := h.line
  cases hc : c.line with
  | none =>
    rw [hc] at hline
    have hquoted : s.lineQuoted = true := hline
    simp only [isTerminatorLine, hquoted, Bool.not_true, Bool.false_and]
    constructor
    · intro h
      exact absurd h (by simp)
    · rintro ⟨-, -, cs, hcs, -⟩
      rw [hc] at hcs
      exact absurd hcs (by simp)
  | some cs =>
    rw [hc] at hline
    obtain ⟨hquoted, hline⟩ := hline
    have hgo : (cs.flatMap wordBytes).map Char.toUpper = ['G', 'O'] ↔ upper cs = ['G', 'O'] :=
      map_toUpper_bytes_eq_iff (by simp)
    simp only [isTerminatorLine, hquoted, hslash, hline, h.under, List.reverse_reverse,
      Bool.not_false, Bool.true_and, Bool.false_and, Bool.false_or, Bool.and_eq_true, beq_iff_eq]
    rw [upper, hgo]
    constructor
    · rintro ⟨hrules, heq⟩
      exact ⟨hrules, rfl, cs, hc, heq⟩
    · rintro ⟨hrules, -, cs', hcs', heq⟩
      rw [hc] at hcs'
      obtain rfl := Option.some.inj hcs'
      exact ⟨hrules, heq⟩

/-- Where a statement ends. -/
theorem take_cut_iff (hslash : rules.slashLines = false) (h : Sees rules c s) :
    (take s l).2 = true ↔ GoLine rules c l ∨ (l = .punct ';' ∧ s.settleEnd.depth = 0) := by
  cases l with
  | blank ch =>
    by_cases hch : ch = '\n'
    · subst hch
      rw [take, if_pos rfl, endLine, ← isTerminatorLine_iff hslash h]
      split
      case isTrue hline => simp [hline]
      case isFalse hline => simp [hline]
    · have hne : ¬ GoLine rules c (.blank ch) := fun hgo => hch (Lexeme.blank.inj hgo.newline)
      rw [take, if_neg hch]
      simp [hne]
  | punct ch =>
    have hne : ¬ GoLine rules c (.punct ch) := fun hgo => absurd hgo.newline (by simp)
    by_cases hch : ch = ';'
    · subst hch
      have hmid : (s.takePunct ';').settleEnd.depth = s.settleEnd.depth := rfl
      rw [take, if_pos rfl, terminator, hmid]
      by_cases hdepth : s.settleEnd.depth = 0
      · simp [takePunct, pushLine, h.unit, hdepth]
      · simp [takePunct, pushLine, h.unit, hdepth, hne]
    · rw [take, if_neg hch]
      simp [hne, hch]
  | word | quoted | dollar | lineComment | blockComment =>
    refine ⟨fun hcut => absurd hcut (by simp [take]), ?_⟩
    rintro (hgo | ⟨heq, -⟩)
    · exact absurd hgo.newline (by simp)
    · exact absurd heq (by simp)

theorem storedUnit_onWord (hslash : s.rules.slashLines = false) (w : String) :
    (s.onWord w).storedUnit = s.storedUnit := by
  unfold onWord
  split
  · dsimp only
    split
    · rfl
    · split
      · rfl
      · simp [countWord, nestWord, noteWord, closeBlock, hslash]
  · simp [countWord, nestWord, noteWord, hslash]

theorem resetLine_of_uncut (h : s.endLine.2 = false) : s.endLine.1 = s.resetLine false := by
  unfold endLine at h ⊢
  split
  case isTrue hline => exact absurd h (by simp [hline])
  case isFalse => rfl

theorem settleEnd_of_uncut (h : s.terminator.2 = false) : s.terminator.1 = s.settleEnd := by
  unfold terminator at h ⊢
  split
  case isTrue => rfl
  case isFalse hline => exact absurd h (by simp [hline])

theorem Sees.step_word (hslash : rules.slashLines = false) (h : Sees rules c s) {cs : List Char}
    (hcs : cs ≠ []) : Sees rules (c.step (.word cs)) (take s (.word cs)).1 := by
  have hsettled := h.settled.take (.word cs)
  have hunder : (take s (.word cs)).1.rules = rules := (rules_take s _).trans h.under
  have hslash' : (wordOnLine s cs).rules.slashLines = false := by
    rw [← hslash, ← h.under]
    rfl
  have hunit := storedUnit_onWord hslash' (spoken cs)
  obtain ⟨_, _, _, _, _, heq⟩ := (wordOnLine s cs).onWord_eq (spoken cs)
  have hknown : ∀ w ∈ nameWords, w ∈ knownWords := fun w hw => by
    simp [knownWords, hw]
  rw [take_word h.settled hcs] at hsettled hunder ⊢
  refine ⟨hsettled, hunder, hunit.trans h.unit, ?_, ?_, ?_⟩
  · rw [heq, Context.step]
    exact h.parens.trans (c.parens_nest _).symm
  · simp [admits, Context.step, Lexeme.admitsBlock, spoken_mem_iff hknown]
  · exact h.line.push (by rw [heq]; rfl) (by rw [heq]; rfl)

theorem lt_of_isPunct {ch : Char} (h : Lexeme.isPunct rules ch = true) : ch.toNat < 128 := by
  simp only [Lexeme.isPunct, opensWord, Bool.and_eq_true, Bool.not_eq_true', Bool.or_eq_false_iff,
    decide_eq_false_iff_not] at h
  omega

theorem Sees.step_punct (h : Sees rules c s) {ch : Char} (hch : Lexeme.isPunct rules ch = true)
    (huncut : (take s (.punct ch)).2 = false) :
    Sees rules (c.step (.punct ch)) (take s (.punct ch)).1 := by
  have hsettled := h.settled.take (.punct ch)
  have hunder : (take s (.punct ch)).1.rules = rules := (rules_take s _).trans h.under
  have hbytes : [ch].flatMap wordBytes = [ch] := by simp [wordBytes_of_lt (lt_of_isPunct hch)]
  by_cases hsemicolon : ch = ';'
  · subst hsemicolon
    rw [take, if_pos rfl] at huncut hsettled hunder ⊢
    rw [settleEnd_of_uncut huncut] at hsettled hunder ⊢
    exact ⟨hsettled, hunder, h.unit, h.parens, rfl, h.line.push rfl (by rw [hbytes]; rfl)⟩
  · rw [take_punct h.settled hsemicolon] at hsettled hunder ⊢
    refine ⟨hsettled, hunder, h.unit, ?_, ?_, h.line.push rfl (by rw [hbytes]; rfl)⟩
    · simp only [Context.step, h.parens]
    · by_cases hdollar : ch = '$' ∧ s.rules.dollarQuotes = true
      · simp [admits, Context.step, Lexeme.admitsBlock, hdollar, ← h.under]
      · have hnot : (ch == '$' && rules.dollarQuotes) = false := by
          rw [← h.under, Bool.eq_false_iff]
          simpa using hdollar
        simp [admits, Context.step, Lexeme.admitsBlock, hdollar, hnot]

theorem Sees.step (hslash : rules.slashLines = false) (hl : l.Formed rules) (h : Sees rules c s)
    (huncut : (take s l).2 = false) : Sees rules (c.step l) (take s l).1 := by
  have hsettled := h.settled.take l
  have hunder : (take s l).1.rules = rules := (rules_take s l).trans h.under
  cases hl with
  | @blank ch =>
    rw [take] at huncut hsettled hunder ⊢
    rw [Context.step]
    by_cases hch : ch = '\n'
    · rw [if_pos hch] at huncut hsettled hunder ⊢
      rw [if_pos hch]
      rw [resetLine_of_uncut huncut] at hsettled hunder ⊢
      exact ⟨hsettled, hunder, h.unit, h.parens, h.previous, rfl, rfl⟩
    · rw [if_neg hch, if_neg hch]
      exact h
  | word => exact h.step_word hslash (by simp)
  | punct hpunct => exact h.step_punct hpunct huncut
  | quoted => exact ⟨hsettled, hunder, h.unit, h.parens, rfl, rfl⟩
  | dollar => exact ⟨hsettled, hunder, h.unit, h.parens, rfl, rfl⟩
  | lineComment => exact h
  | @blockComment body =>
    dsimp only [take] at hsettled hunder ⊢
    rw [Context.step]
    by_cases hbody : '\n' ∈ body
    · rw [if_pos hbody] at hsettled hunder ⊢
      rw [if_pos hbody]
      exact ⟨hsettled, hunder, h.unit, h.parens, h.previous, rfl, rfl⟩
    · rw [if_neg hbody, if_neg hbody]
      exact h

/-! ### Counting blocks -/

/-- What a word does to the count of open blocks. -/
inductive WordStep (s s' : Scanner) (w : String) : Prop where
  | suffix (hpending : s.pendingEnd = true) (hw : w ∈ endSuffixes) (hdepth : s'.depth = s.depth)
      (hdecided : s'.pendingEnd = false)
  | reopen (hpending : s.pendingEnd = true) (hw : w = "CASE") (hdepth : s'.depth = s.depth - 1)
      (hdecided : s'.pendingEnd = false)
  | count (opens : Bool) (hnot : ¬ (s.pendingEnd = true ∧ (w ∈ endSuffixes ∨ w = "CASE")))
      (hopens : Started s → opens = (s.parens == 0 && admits s.previous))
      (hdepth : s'.depth = if w = "CASE" ∨ (w = "BEGIN" ∧ opens = true) then s.settleEnd.depth + 1
        else s.settleEnd.depth)
      (hpending : s'.pendingEnd = (w == "END" && s.settleEnd.depth != 0))

theorem wordStep (hs : Settled s) (hslash : s.rules.slashLines = false) {cs : List Char}
    (hcs : cs ≠ []) : WordStep s (take s (.word cs)).1 (Lexeme.word cs).keyword := by
  have hsuffixes : ∀ w ∈ endSuffixes, w ∈ knownWords := by
    have hall : endSuffixes.all (knownWords.contains ·) = true := by decide
    intro w hw
    simpa using List.all_eq_true.1 hall w hw
  have hcase := spoken_eq_iff (w := "CASE") (by decide) cs
  have hbegin := spoken_eq_iff (w := "BEGIN") (by decide) cs
  have hend := spoken_eq_iff (w := "END") (by decide) cs
  have hsuffix := spoken_mem_iff hsuffixes cs
  rw [take_word hs hcs]
  by_cases hread : s.pendingEnd = true ∧
      ((Lexeme.word cs).keyword ∈ endSuffixes ∨ (Lexeme.word cs).keyword = "CASE")
  · obtain ⟨hpending, hw | hw⟩ := hread
    · rw [onWord_of_suffix (s := wordOnLine s cs) hpending (hsuffix.2 hw)]
      exact .suffix hpending hw rfl rfl
    · rw [hcase.2 hw, onWord_case (s := wordOnLine s cs) hpending]
      exact .reopen hpending hw (if_pos hpending) rfl
  · have hspoken : ¬ ((wordOnLine s cs).pendingEnd = true ∧
        (spoken cs ∈ endSuffixes ∨ spoken cs = "CASE")) := by
      rw [hsuffix, hcase]
      exact hread
    rw [onWord_of_not hspoken]
    refine .count (((wordOnLine s cs).settleEnd.noteWord (spoken cs)).opensBlock) hread ?_ ?_ ?_
    · intro hstarted
      exact opensBlock_noteWord (s := (wordOnLine s cs).settleEnd)
        ⟨hstarted.head, hstarted.words, rfl⟩ (spoken cs)
    · have hdepth := depth_countWord (s := (wordOnLine s cs).settleEnd) hslash (spoken cs)
      simp only [hcase, hbegin] at hdepth
      exact hdepth
    · have hpending := pendingEnd_countWord (s := (wordOnLine s cs).settleEnd) hslash (spoken cs)
      have hsame : (spoken cs == "END") = ((Lexeme.word cs).keyword == "END") := by
        rw [Bool.eq_iff_iff, beq_iff_eq, beq_iff_eq, hend]
      rw [hsame] at hpending
      exact hpending

/-- The scanner counts what the reader counts. -/
structure Exact (c : Context) (s : Scanner) : Prop where
  depth : s.depth = c.depth
  pending : s.pendingEnd = (c.undecided && c.depth != 0)

/-- The scanner counts fewer open blocks than the reader. -/
structure Lags (c : Context) (s : Scanner) : Prop where
  depth : s.depth < c.depth
  pending : s.pendingEnd = true → c.undecided = true
  decided : c.undecided = true → s.pendingEnd = false → s.depth = 0

/-- A word that opens something and that a scanner takes for something else: a `CASE` behind an
undecided `END`, or a `BEGIN` that stands in parentheses or where a name would stand. -/
inductive Misread (rules : LexicalRules) (c : Context) (l : Lexeme) : Prop where
  | reopened (hcase : l.keyword = "CASE") (h : c.undecided = true)
  | hidden (hbegin : l.keyword = "BEGIN")
      (h : ¬ (c.parens = 0 ∧ c.last.any (·.admitsBlock rules) = true))

theorem Exact.settled (h : Exact c s) : s.settleEnd.depth = c.settled := by
  simp only [settleEnd, Context.settled, h.pending, h.depth]
  cases c.undecided with
  | false => rfl
  | true =>
    by_cases hdepth : c.depth = 0
    · simp [hdepth]
    · simp [hdepth]

theorem Lags.settled (h : Lags c s) (hopen : c.settled ≠ 0) : s.settleEnd.depth < c.settled := by
  have hlt := h.depth
  simp only [settleEnd, Context.settled] at hopen ⊢
  cases hundecided : c.undecided with
  | false =>
    cases hpending : s.pendingEnd with
    | false => simpa using hlt
    | true => exact absurd (h.pending hpending) (by rw [hundecided]; simp)
  | true =>
    rw [hundecided, if_pos rfl] at hopen
    cases hpending : s.pendingEnd with
    | false =>
      have hzero := h.decided hundecided hpending
      simp only [if_true]
      simp
      omega
    | true =>
      simp only [if_true]
      omega

theorem nesting_take (hs : Settled s) (hl : l.settles = false) (huncut : (take s l).2 = false) :
    (take s l).1.depth = s.depth ∧ (take s l).1.pendingEnd = s.pendingEnd := by
  cases l with
  | blank ch =>
    rw [take] at huncut ⊢
    by_cases hch : ch = '\n'
    · rw [if_pos hch] at huncut ⊢
      rw [resetLine_of_uncut huncut]
      exact ⟨rfl, rfl⟩
    · rw [if_neg hch]
      exact ⟨rfl, rfl⟩
  | punct ch =>
    have hch : ch ≠ ';' := fun heq => absurd hl (by simp [Lexeme.settles, heq])
    rw [take_punct hs hch]
    exact ⟨rfl, rfl⟩
  | quoted | dollar | lineComment => exact ⟨rfl, rfl⟩
  | blockComment body =>
    dsimp only [take]
    split
    · exact ⟨rfl, rfl⟩
    · exact ⟨rfl, rfl⟩
  | word => exact absurd hl (by simp [Lexeme.settles])

theorem nesting_semicolon (huncut : (take s (.punct ';')).2 = false) :
    (take s (.punct ';')).1.depth = s.settleEnd.depth ∧
      (take s (.punct ';')).1.pendingEnd = false := by
  rw [take, if_pos rfl] at huncut ⊢
  rw [settleEnd_of_uncut huncut]
  exact ⟨rfl, rfl⟩

theorem nest_of_suffix {w : String} (hundecided : c.undecided = true) (hw : w ∈ endSuffixes) :
    c.nest w = { c with undecided := false } := if_pos ⟨hundecided, hw⟩

theorem nest_of_not {w : String} (h : ¬ (c.undecided = true ∧ w ∈ endSuffixes)) :
    (c.nest w).depth = (if w = "BEGIN" ∨ w = "CASE" then c.settled + 1 else c.settled) ∧
      (c.nest w).undecided = (w == "END") := by
  rw [Context.nest, if_neg h]
  exact ⟨rfl, rfl⟩

theorem not_opening_of_suffix {w : String} (hw : w ∈ endSuffixes) :
    w ≠ "CASE" ∧ w ≠ "BEGIN" ∧ w ≠ "END" := by
  refine ⟨?_, ?_, ?_⟩
  all_goals
    rintro rfl
    exact absurd hw (by decide)

theorem Exact.nest {s' : Scanner} {w : String} (h : Exact c s) (hstep : WordStep s s' w)
    (hcase : w = "CASE" → c.undecided = false)
    (hbegin : w = "BEGIN" → Started s ∧ (s.parens == 0 && admits s.previous) = true) :
    Exact (c.nest w) s' := by
  cases hstep with
  | suffix hpending hw hdepth hdecided =>
    have hundecided : c.undecided = true := by
      rw [h.pending, Bool.and_eq_true] at hpending
      exact hpending.1
    rw [nest_of_suffix hundecided hw]
    exact ⟨hdepth.trans h.depth, hdecided⟩
  | reopen hpending hw hdepth hdecided =>
    rw [h.pending, hcase hw] at hpending
    exact absurd hpending (by simp)
  | count opens hnot hopens hdepth hpending =>
    rw [h.settled] at hdepth hpending
    by_cases hkeep : c.undecided = true ∧ w ∈ endSuffixes
    · obtain ⟨hundecided, hw⟩ := hkeep
      obtain ⟨hncase, hnbegin, hnend⟩ := not_opening_of_suffix hw
      have hzero : c.depth = 0 := by
        have hfalse : s.pendingEnd ≠ true := fun htrue => hnot ⟨htrue, .inl hw⟩
        rw [h.pending, hundecided] at hfalse
        simpa using hfalse
      have hsettled : c.settled = 0 := by simp [Context.settled, hzero]
      rw [nest_of_suffix hundecided hw]
      refine ⟨?_, ?_⟩
      · rw [hdepth, hsettled, if_neg (by simp [hncase, hnbegin])]
        exact hzero.symm
      · rw [hpending, beq_eq_false_iff_ne.2 hnend]
        rfl
    · obtain ⟨hdepth', hundecided'⟩ := nest_of_not hkeep
      have hsame : (w = "CASE" ∨ (w = "BEGIN" ∧ opens = true)) ↔ (w = "BEGIN" ∨ w = "CASE") := by
        constructor
        · exact fun hw => hw.symm.imp_left And.left
        · rintro (hw | hw)
          · obtain ⟨hstarted, hadmits⟩ := hbegin hw
            exact .inr ⟨hw, (hopens hstarted).trans hadmits⟩
          · exact .inl hw
      refine ⟨?_, ?_⟩
      · rw [hdepth, hdepth', if_congr hsame rfl rfl]
      · rw [hpending, hdepth', hundecided']
        by_cases hw : w = "END"
        · subst hw
          rfl
        · rw [beq_eq_false_iff_ne.2 hw]
          rfl

/-- While nothing is undecided, lagging is a matter of depth. -/
theorem Lags.of_depth (hdepth : s.depth < c.depth) (hpending : s.pendingEnd = false)
    (hundecided : c.undecided = false) : Lags c s := by
  refine ⟨hdepth, fun htrue => ?_, fun htrue => ?_⟩
  · rw [hpending] at htrue
    contradiction
  · rw [hundecided] at htrue
    contradiction

/-- A `CASE` taken for the end of `END CASE` closes for the scanner what it opens for the reader. -/
theorem Lags.of_setBack {s' : Scanner} (hundecided : c.undecided = true) (hdepth : s.depth ≤ c.depth)
    (hback : s'.depth = s.depth - 1) (hdecided : s'.pendingEnd = false) :
    Lags (c.nest "CASE") s' := by
  obtain ⟨hdepth', hundecided'⟩ := nest_of_not (c := c) (w := "CASE") (by simp [endSuffixes])
  refine .of_depth ?_ hdecided hundecided'
  rw [hback, hdepth', if_pos (.inr rfl)]
  simp only [Context.settled, hundecided, if_true]
  omega

theorem Lags.of_reopened {s' : Scanner} (h : Exact c s) (hstep : WordStep s s' "CASE")
    (hundecided : c.undecided = true) (hopen : c.settled ≠ 0) : Lags (c.nest "CASE") s' := by
  have hdepth : c.depth ≠ 0 := by
    intro hzero
    exact hopen (by simp [Context.settled, hzero])
  have hpending : s.pendingEnd = true := by
    rw [h.pending, hundecided]
    simpa using hdepth
  cases hstep with
  | suffix _ hw => exact absurd hw (by decide)
  | count _ hnot => exact absurd ⟨hpending, .inr rfl⟩ hnot
  | reopen _ _ hback hdecided => exact .of_setBack hundecided h.depth.le hback hdecided

/-- A `BEGIN` taken for a name opens nothing for the scanner. -/
theorem Lags.of_hidden {s' : Scanner} (h : Exact c s) (hstep : WordStep s s' "BEGIN")
    (hstarted : Started s) (hhidden : (s.parens == 0 && admits s.previous) = false) :
    Lags (c.nest "BEGIN") s' := by
  obtain ⟨hdepth', hundecided'⟩ := nest_of_not (c := c) (w := "BEGIN") (by simp [endSuffixes])
  cases hstep with
  | suffix _ hw => exact absurd hw (by decide)
  | reopen _ hw => exact absurd hw (by decide)
  | count opens _ hopens hdepth hpending =>
    have hname : opens = false := (hopens hstarted).trans hhidden
    refine .of_depth ?_ hpending hundecided'
    rw [hdepth, hdepth', if_neg (by simp [hname]), if_pos (.inl rfl), h.settled]
    omega

/-- Once set back, the scanner stays behind while something is open. -/
theorem Lags.nest {s' : Scanner} {w : String} (h : Lags c s) (hstep : WordStep s s' w)
    (hopen : ¬ (c.undecided = true ∧ w ∈ endSuffixes) → c.settled ≠ 0) : Lags (c.nest w) s' := by
  have hlt := h.depth
  cases hstep with
  | suffix hpending hw hdepth hdecided =>
    rw [nest_of_suffix (h.pending hpending) hw]
    exact .of_depth (by rwa [hdepth]) hdecided rfl
  | reopen hpending hw hdepth hdecided =>
    subst hw
    exact .of_setBack (h.pending hpending) hlt.le hdepth hdecided
  | count opens hnot _ hdepth hpending =>
    by_cases hkeep : c.undecided = true ∧ w ∈ endSuffixes
    · obtain ⟨hundecided, hw⟩ := hkeep
      obtain ⟨hncase, hnbegin, hnend⟩ := not_opening_of_suffix hw
      have hfalse : s.pendingEnd = false := by
        rw [Bool.eq_false_iff]
        exact fun htrue => hnot ⟨htrue, .inl hw⟩
      have hzero : s.settleEnd.depth = 0 := by
        simp only [settleEnd, hfalse]
        exact h.decided hundecided hfalse
      rw [nest_of_suffix hundecided hw]
      refine .of_depth ?_ (by rw [hpending, beq_eq_false_iff_ne.2 hnend, Bool.false_and]) rfl
      rw [hdepth, hzero, if_neg (by simp [hncase, hnbegin])]
      exact Nat.zero_lt_of_lt hlt
    · have hbehind := h.settled (hopen hkeep)
      obtain ⟨hdepth', hundecided'⟩ := nest_of_not hkeep
      refine ⟨?_, fun htrue => ?_, fun hundecided hfalse => ?_⟩
      · rw [hdepth, hdepth']
        by_cases hw : w = "BEGIN" ∨ w = "CASE"
        · rw [if_pos hw]
          split
          all_goals omega
        · obtain ⟨hnbegin, hncase⟩ := not_or.1 hw
          rw [if_neg hw, if_neg (by simp [hnbegin, hncase])]
          exact hbehind
      · rw [hpending, Bool.and_eq_true] at htrue
        rw [hundecided']
        exact htrue.1
      · rw [hundecided'] at hundecided
        rw [hpending, hundecided] at hfalse
        have hzero : s.settleEnd.depth = 0 := by simpa using hfalse
        have hw : w = "END" := by simpa using hundecided
        rw [hdepth, hzero, if_neg (by simp [hw])]

/-! ### Taking lexemes -/

theorem Lexeme.Formed.settles_cases (hl : l.Formed rules) (hsettles : l.settles = true) :
    l = .punct ';' ∨ ∃ cs, cs ≠ [] ∧ l = .word cs := by
  cases hl with
  | @punct ch =>
    have hch : ch = ';' := by simpa [Lexeme.settles] using hsettles
    exact .inl (by rw [hch])
  | @word ch cs => exact .inr ⟨ch :: cs, by simp, rfl⟩
  | blank | quoted | dollar | lineComment | blockComment =>
    exact absurd hsettles (by simp [Lexeme.settles])

theorem Sees.wordStep (hslash : rules.slashLines = false) (h : Sees rules c s) {cs : List Char}
    (hcs : cs ≠ []) : WordStep s (take s (.word cs)).1 (Lexeme.word cs).keyword :=
  DdlBridge.Statement.wordStep h.settled (by rw [h.under, hslash]) hcs

theorem Sees.admits_iff (h : Sees rules c s) : (s.parens == 0 && admits s.previous) = true ↔
    c.parens = 0 ∧ c.last.any (·.admitsBlock rules) = true := by
  rw [h.parens, h.previous, Bool.and_eq_true, beq_iff_eq]

/-- Until a word is misread, the scanner counts what the reader counts. -/
theorem Exact.step (hslash : rules.slashLines = false) (hl : l.Formed rules) (hsees : Sees rules c s)
    (hstarted : l.keyword = "BEGIN" → Started s) (hread : ¬ Misread rules c l) (h : Exact c s)
    (huncut : (take s l).2 = false) : Exact (c.step l) (take s l).1 := by
  cases hsettles : l.settles with
  | false =>
    obtain ⟨hdepth, hpending⟩ := nesting_take hsees.settled hsettles huncut
    have hkept := Context.At.of_not_settles (c := c) (l := l) ⟨rfl, rfl⟩ hsettles
    refine ⟨?_, ?_⟩
    · rw [hdepth, hkept.depth, h.depth]
    · rw [hpending, hkept.depth, hkept.undecided, h.pending]
  | true =>
    obtain rfl | ⟨cs, hcs, rfl⟩ := hl.settles_cases hsettles
    · obtain ⟨hdepth, hpending⟩ := nesting_semicolon huncut
      refine ⟨hdepth.trans h.settled, ?_⟩
      rw [hpending, (Context.at_semicolon c).undecided, Bool.false_and]
    · have hnest := h.nest (hsees.wordStep hslash hcs) (fun hcase => ?_) fun hbegin => ?_
      · exact ⟨hnest.depth, hnest.pending⟩
      · rw [Bool.eq_false_iff]
        exact fun hundecided => hread (.reopened hcase hundecided)
      · refine ⟨hstarted hbegin, hsees.admits_iff.2 ?_⟩
        exact Decidable.not_not.1 fun hhidden => hread (.hidden hbegin hhidden)

theorem Lags.of_misread (hslash : rules.slashLines = false) (hsees : Sees rules c s)
    (hstarted : Started s) (h : Exact c s) (hread : Misread rules c l)
    (hopen : l.keyword = "CASE" → c.settled ≠ 0) : Lags (c.step l) (take s l).1 := by
  cases hread with
  | reopened hcase hundecided =>
    obtain ⟨cs, hcs, rfl⟩ := Lexeme.exists_word_of_keyword hcase (by decide)
    have hstep := hsees.wordStep hslash hcs
    rw [hcase] at hstep
    have hnest := Lags.of_reopened h hstep hundecided (hopen hcase)
    rw [← hcase] at hnest
    exact ⟨hnest.depth, hnest.pending, hnest.decided⟩
  | hidden hbegin hhidden =>
    obtain ⟨cs, hcs, rfl⟩ := Lexeme.exists_word_of_keyword hbegin (by decide)
    have hstep := hsees.wordStep hslash hcs
    rw [hbegin] at hstep
    rw [← hsees.admits_iff, Bool.not_eq_true] at hhidden
    have hnest := Lags.of_hidden h hstep hstarted hhidden
    rw [← hbegin] at hnest
    exact ⟨hnest.depth, hnest.pending, hnest.decided⟩

theorem Lags.step (hslash : rules.slashLines = false) (hl : l.Formed rules) (hsees : Sees rules c s)
    (hopen : ¬ Bare c l) (h : Lags c s) (huncut : (take s l).2 = false) :
    Lags (c.step l) (take s l).1 := by
  cases hsettles : l.settles with
  | false =>
    obtain ⟨hdepth, hpending⟩ := nesting_take hsees.settled hsettles huncut
    have hkept := Context.At.of_not_settles (c := c) (l := l) ⟨rfl, rfl⟩ hsettles
    refine ⟨?_, ?_, ?_⟩
    · rw [hdepth, hkept.depth]
      exact h.depth
    · rw [hpending, hkept.undecided]
      exact h.pending
    · rw [hdepth, hpending, hkept.undecided]
      exact h.decided
  | true =>
    have hsettled : ¬ (c.undecided = true ∧ l.keyword ∈ endSuffixes) → c.settled ≠ 0 :=
      fun hkeeps hzero => hopen ⟨hsettles, hkeeps, hzero⟩
    obtain rfl | ⟨cs, hcs, rfl⟩ := hl.settles_cases hsettles
    · obtain ⟨hdepth, hpending⟩ := nesting_semicolon huncut
      have hat := Context.at_semicolon c
      refine .of_depth ?_ hpending hat.undecided
      rw [hdepth, hat.depth]
      exact h.settled (hsettled fun hkeeps => absurd hkeeps.2 (by decide))
    · have hnest := h.nest (hsees.wordStep hslash hcs) hsettled
      exact ⟨hnest.depth, hnest.pending, hnest.decided⟩

theorem Started.onWord (h : Started s) (w : String) : Started (s.onWord w) := by
  have hcount : ∀ t : Scanner, Started t → Started (t.countWord w) := by
    intro t ht
    refine ⟨?_, Nat.succ_pos _, ht.content⟩
    show mayHoldBlock (t.noteWord w).head = true
    simp only [noteWord]
    split
    · exact mayHoldBlock_append ht.head [w]
    · exact ht.head
  unfold Scanner.onWord
  split
  · dsimp only
    split
    · exact ⟨h.head, h.words, h.content⟩
    · split
      · exact ⟨h.head, h.words, h.content⟩
      · exact hcount _ ⟨h.head, h.words, h.content⟩
  · exact hcount s h

/-- The first words of a statement change at words only. -/
theorem head_take (hs : Settled s) (hl : ∀ cs, l ≠ .word cs) (huncut : (take s l).2 = false) :
    (take s l).1.head = s.head ∧ (take s l).1.words = s.words ∧
      (s.content = true → (take s l).1.content = true) := by
  cases l with
  | blank ch =>
    rw [take] at huncut ⊢
    by_cases hch : ch = '\n'
    · rw [if_pos hch] at huncut ⊢
      rw [resetLine_of_uncut huncut]
      exact ⟨rfl, rfl, id⟩
    · rw [if_neg hch]
      exact ⟨rfl, rfl, id⟩
  | word cs => exact absurd rfl (hl cs)
  | punct ch =>
    by_cases hch : ch = ';'
    · subst hch
      rw [take, if_pos rfl] at huncut ⊢
      rw [settleEnd_of_uncut huncut]
      exact ⟨rfl, rfl, fun _ => rfl⟩
    · rw [take_punct hs hch]
      exact ⟨rfl, rfl, fun _ => rfl⟩
  | quoted | dollar => exact ⟨rfl, rfl, fun _ => rfl⟩
  | lineComment => exact ⟨rfl, rfl, id⟩
  | blockComment body =>
    dsimp only [take]
    split
    · exact ⟨rfl, rfl, id⟩
    · exact ⟨rfl, rfl, id⟩

theorem Started.step (hs : Settled s) (hl : l.Formed rules) (h : Started s)
    (huncut : (take s l).2 = false) : Started (take s l).1 := by
  by_cases hword : ∃ cs, l = .word cs
  · obtain ⟨cs, rfl⟩ := hword
    have hcs : cs ≠ [] := by
      rintro rfl
      cases hl
    have hkept := Started.onWord (s := wordOnLine s cs) ⟨h.head, h.words, rfl⟩ (spoken cs)
    rw [take_word hs hcs]
    exact ⟨hkept.head, hkept.words, hkept.content⟩
  · obtain ⟨hhead, hwords, hcontent⟩ := head_take hs (fun cs heq => hword ⟨cs, heq⟩) huncut
    exact ⟨hhead ▸ h.head, hwords ▸ h.words, hcontent h.content⟩

/-! ### The first words -/

/-- The first words have been read and nothing else. -/
structure Begun (ws : List String) (s : Scanner) : Prop where
  head : s.head = ws
  words : s.words = ws.length
  pending : s.pendingEnd = false

theorem Begun.gap {ws : List String} (hs : Settled s) (h : Begun ws s) {l : Lexeme}
    (hl : l.isGap = true) (huncut : (take s l).2 = false) : Begun ws (take s l).1 := by
  have hword : ∀ cs, l ≠ .word cs := by
    rintro cs rfl
    exact absurd hl (by simp [Lexeme.isGap])
  obtain ⟨hhead, hwords, -⟩ := head_take hs hword huncut
  obtain ⟨-, hpending⟩ := nesting_take hs (Lexeme.settles_of_isGap hl) huncut
  exact ⟨hhead.trans h.head, hwords.trans h.words, hpending.trans h.pending⟩

theorem Begun.word {ws : List String} (hs : Settled s) (h : Begun ws s) (hws : ws.length < maxHead)
    {l : Lexeme} {w : String} (hl : l.keyword = w) (hw : w ∈ knownWords) (hend : w ≠ "END") :
    Begun (ws ++ [w]) (take s l).1 ∧ (take s l).1.content = true := by
  have hne : w ≠ "" := by
    rintro rfl
    exact absurd hw (by decide)
  obtain ⟨cs, hcs, rfl⟩ := Lexeme.exists_word_of_keyword hl hne
  have hpending : (wordOnLine s cs).pendingEnd = false := h.pending
  rw [take_word hs hcs, (spoken_eq_iff hw cs).2 hl, Scanner.onWord, if_neg (by rw [hpending]; simp)]
  refine ⟨⟨?_, ?_, ?_⟩, rfl⟩
  · simp [countWord, nestWord, noteWord, wordOnLine, h.head, hws]
  · simp [countWord, nestWord, noteWord, wordOnLine, h.words]
  · simp [countWord, nestWord, noteWord, wordOnLine, h.pending, hend]

/-! ### Taking rows of lexemes -/

theorem takeAll_cons_uncut {ls : List Lexeme} (h : (takeAll s (l :: ls)).2 = false) :
    (take s l).2 = false ∧ (takeAll (take s l).1 ls).2 = false := by
  rw [takeAll] at h
  exact Bool.or_eq_false_iff.1 h

theorem takeAll_append_uncut {ls ls' : List Lexeme} (h : (takeAll s (ls ++ ls')).2 = false) :
    (takeAll s ls).2 = false ∧ (takeAll (takeAll s ls).1 ls').2 = false := by
  rw [takeAll_append] at h
  exact Bool.or_eq_false_iff.1 h

theorem takeAll_append_fst (s : Scanner) (ls ls' : List Lexeme) :
    (takeAll s (ls ++ ls')).1 = (takeAll (takeAll s ls).1 ls').1 := by
  rw [takeAll_append]

/-- A row with a statement end has a first one. -/
theorem exists_first_cut {ls : List Lexeme} (h : (takeAll s ls).2 = true) :
    ∃ front l rest, ls = front ++ l :: rest ∧ (takeAll s front).2 = false ∧
      (take (takeAll s front).1 l).2 = true := by
  induction ls generalizing s with
  | nil => exact absurd h (by simp [takeAll])
  | cons l ls ih =>
    cases hfirst : (take s l).2 with
    | true => exact ⟨[], l, ls, rfl, rfl, hfirst⟩
    | false =>
      rw [takeAll, hfirst, Bool.false_or] at h
      obtain ⟨front, l', rest, rfl, hfront, hcut⟩ := ih h
      refine ⟨l :: front, l', rest, rfl, ?_, hcut⟩
      rw [takeAll, hfirst, hfront]
      rfl

/-- What single lexemes keep, rows of them keep. -/
theorem takeAll_keeps {P : Context → Scanner → Prop} {ls : List Lexeme}
    (hstep : ∀ l ∈ ls, ∀ c s, P c s → (take s l).2 = false → P (c.step l) (take s l).1)
    (h : P c s) (huncut : (takeAll s ls).2 = false) : P (c.after ls) (takeAll s ls).1 := by
  induction ls generalizing c s with
  | nil => exact h
  | cons l ls ih =>
    obtain ⟨hfirst, hrest⟩ := takeAll_cons_uncut huncut
    exact ih (fun l' hmem => hstep l' (List.mem_cons_of_mem _ hmem))
      (hstep l List.mem_cons_self c s h hfirst) hrest

theorem sees_run (hslash : rules.slashLines = false) {ls : List Lexeme}
    (hformed : ∀ l ∈ ls, l.Formed rules) (h : Sees rules c s) (huncut : (takeAll s ls).2 = false) :
    Sees rules (c.after ls) (takeAll s ls).1 :=
  takeAll_keeps (fun l hl _ _ hsees => hsees.step hslash (hformed l hl)) h huncut

theorem sees_fresh (rules : LexicalRules) : Sees rules {} (fresh rules) :=
  ⟨⟨rfl, rfl⟩, rfl, rfl, rfl, rfl, rfl, rfl⟩

theorem started_run {ls : List Lexeme} (hformed : ∀ l ∈ ls, l.Formed rules) (hs : Settled s)
    (h : Started s) (huncut : (takeAll s ls).2 = false) : Started (takeAll s ls).1 := by
  have hboth := takeAll_keeps (c := {}) (P := fun _ s => Settled s ∧ Started s)
    (fun l hl _ _ hs huncut => ⟨hs.1.take l, hs.2.step hs.1 (hformed l hl) huncut⟩) ⟨hs, h⟩ huncut
  exact hboth.2

theorem exact_run (hslash : rules.slashLines = false) {ls : List Lexeme}
    (hformed : ∀ l ∈ ls, l.Formed rules) (hsees : Sees rules c s)
    (hstarted : Started s ∨ ∀ l ∈ ls, l.keyword ≠ "BEGIN") (hread : ¬ Meets (Misread rules) c ls)
    (h : Exact c s) (huncut : (takeAll s ls).2 = false) : Exact (c.after ls) (takeAll s ls).1 := by
  induction ls generalizing c s with
  | nil => exact h
  | cons l ls ih =>
    obtain ⟨hfirst, hrest⟩ := takeAll_cons_uncut huncut
    rw [meets_cons, not_or] at hread
    have hl := hformed l List.mem_cons_self
    have hbegin : l.keyword = "BEGIN" → Started s := fun heq =>
      hstarted.resolve_right fun hnone => hnone l List.mem_cons_self heq
    refine ih (fun l' hmem => hformed l' (List.mem_cons_of_mem _ hmem)) (hsees.step hslash hl hfirst)
      ?_ hread.2 (h.step hslash hl hsees hbegin hread.1 hfirst) hrest
    exact hstarted.imp (fun hstarted => hstarted.step hsees.settled hl hfirst)
      fun hnone l' hmem => hnone l' (List.mem_cons_of_mem _ hmem)

theorem lags_run (hslash : rules.slashLines = false) {ls : List Lexeme}
    (hformed : ∀ l ∈ ls, l.Formed rules) (hsees : Sees rules c s) (hopen : ¬ Meets Bare c ls)
    (h : Lags c s) (huncut : (takeAll s ls).2 = false) : Lags (c.after ls) (takeAll s ls).1 := by
  induction ls generalizing c s with
  | nil => exact h
  | cons l ls ih =>
    obtain ⟨hfirst, hrest⟩ := takeAll_cons_uncut huncut
    rw [meets_cons, not_or] at hopen
    have hl := hformed l List.mem_cons_self
    exact ih (fun l' hmem => hformed l' (List.mem_cons_of_mem _ hmem)) (hsees.step hslash hl hfirst)
      hopen.2 (h.step hslash hl hsees hopen.1 hfirst) hrest

/-- Behind a misread word the scanner lags. -/
theorem misread_run (hslash : rules.slashLines = false) {ls : List Lexeme}
    (hformed : ∀ l ∈ ls, l.Formed rules) (hsees : Sees rules c s) (hstarted : Started s)
    (hopen : ¬ Meets Bare c ls) (hread : Meets (Misread rules) c ls) (h : Exact c s)
    (huncut : (takeAll s ls).2 = false) : Lags (c.after ls) (takeAll s ls).1 := by
  induction ls generalizing c s with
  | nil => exact absurd hread (not_meets_nil _ c)
  | cons l ls ih =>
    obtain ⟨hfirst, hrest⟩ := takeAll_cons_uncut huncut
    rw [meets_cons, not_or] at hopen
    rw [meets_cons] at hread
    have hl := hformed l List.mem_cons_self
    have hformed' : ∀ l' ∈ ls, l'.Formed rules := fun l' hmem => hformed l' (List.mem_cons_of_mem _ hmem)
    have hsees' := hsees.step hslash hl hfirst
    by_cases hmisread : Misread rules c l
    · have hsettled : l.keyword = "CASE" → c.settled ≠ 0 := by
        intro hcase hzero
        obtain ⟨cs, -, rfl⟩ := Lexeme.exists_word_of_keyword hcase (by decide)
        exact hopen.1 ⟨rfl, by rw [hcase]; simp [endSuffixes], hzero⟩
      have hlags := Lags.of_misread hslash hsees hstarted h hmisread hsettled
      have hlater := lags_run hslash hformed' hsees' hopen.2 hlags hrest
      exact hlater
    · exact ih hformed' hsees' (hstarted.step hsees.settled hl hfirst) hopen.2
        (hread.resolve_left hmisread) (h.step hslash hl hsees (fun _ => hstarted) hmisread hfirst) hrest

end DdlBridge.Statement
