import DdlBridge.Proofs.Statement.TriggerStatement
import Mathlib.Algebra.GroupWithZero.Nat

/-!
# Definitions read by a scanner

No word but `CASE` opens a block in the definition of a table or a sequence. So a scanner reads through
it (`Defining.run`), and past the end of any line that is longer than `GO` (`Defining.newline`), and
ends it at its `;` (`Defining.cut`).
-/

namespace DdlBridge.Statement

open Scanner Text

variable {rules : LexicalRules} {s : Scanner} {l : Lexeme} {k : Nat}

/-- The lexeme neither ends a statement nor opens a block, and ends a line only where lines end no
statement. -/
def Lexeme.Calm (rules : LexicalRules) : Lexeme → Prop
  | .blank c => c = '\n' → LineFree rules
  | .word cs => upper cs ≠ "CASE".toList
  | .punct c => c ≠ ';'
  | .quoted _ _ => True
  | .dollar _ _ | .lineComment _ _ | .blockComment _ => False

/-- How much of a line the lexeme fills. Quotes fill it, for then it ends no statement. -/
def Lexeme.weight : Lexeme → Nat
  | .word cs => cs.length
  | .punct _ => 1
  | .quoted _ _ => 3
  | _ => 0

def weightOf (ls : List Lexeme) : Nat := (ls.map Lexeme.weight).sum

/-- No statement ends in the lexemes, and behind them the scanner is as `Q` says. -/
structure Through (Q : Scanner → Prop) (s : Scanner) (ls : List Lexeme) : Prop where
  uncut : (takeAll s ls).2 = false
  behind : Q (takeAll s ls).1

theorem Through.append {P Q : Scanner → Prop} {ls ls' : List Lexeme} (h : Through P s ls)
    (hrest : ∀ t, P t → Through Q t ls') : Through Q s (ls ++ ls') := by
  obtain ⟨huncut, hbehind⟩ := hrest _ h.behind
  refine ⟨?_, ?_⟩
  · rw [takeAll_append, h.uncut, huncut]
    rfl
  · rw [takeAll_append_fst]
    exact hbehind

/-- What single lexemes keep while they fill the line, rows of them keep. -/
theorem Through.of_weights {Q : Nat → Scanner → Prop}
    (hstep : ∀ {k : Nat} {s : Scanner} {l : Lexeme}, Q k s → l.Formed rules → l.Calm rules →
      Through (Q (k + l.weight)) s [l]) {ls : List Lexeme} (h : Q k s)
    (hformed : ∀ l ∈ ls, l.Formed rules) (hcalm : ∀ l ∈ ls, l.Calm rules) :
    Through (Q (k + weightOf ls)) s ls := by
  induction ls generalizing s k with
  | nil => exact ⟨rfl, h⟩
  | cons l ls ih =>
    rw [List.forall_mem_cons] at hformed hcalm
    have hweight : k + weightOf (l :: ls) = k + l.weight + weightOf ls := by
      rw [weightOf, List.map_cons, List.sum_cons, Nat.add_assoc]
      rfl
    rw [hweight]
    exact (hstep h hformed.1 hcalm.1).append fun t ht => ih ht hformed.2 hcalm.2

/-- A line that has more on it than a terminator is none. -/
theorem not_isTerminatorLine_of_filled
    (h : LineFree s.rules ∨ s.lineQuoted = true ∨ 3 ≤ s.line.length) : s.isTerminatorLine = false := by
  rcases h with hfree | hline
  · exact isTerminatorLine_of_lineFree hfree
  have hblocked : Blocked s.line s.lineQuoted :=
    hline.elim .inl fun hlong => blocked_of_length hlong _
  have hnot : ((s.resetLine false).onLine s.line s.lineQuoted s.lastContent).isTerminatorLine =
      false := isTerminatorLine_of_blocked hblocked
  simpa [Scanner.onLine, Scanner.resetLine, Scanner.isTerminatorLine] using hnot

/-- The statement creates a table or a sequence, and `k` of its line is filled. -/
structure Defining (rules : LexicalRules) (k : Nat) (s : Scanner) : Prop where
  settled : Settled s
  under : s.rules = rules
  head : ∃ o ws, o ∈ ["TABLE", "SEQUENCE"] ∧ s.head = "CREATE" :: o :: ws
  depth : s.depth = 0
  pending : s.pendingEnd = false
  unit : s.storedUnit = false
  line : LineFree rules ∨ s.lineQuoted = true ∨ k ≤ s.line.length

theorem namesRoutine_of_definition {o : String} (ho : o ∈ ["TABLE", "SEQUENCE"]) (ws : List String) :
    namesRoutine (o :: ws) = false := by
  have hall : ∀ o ∈ ["TABLE", "SEQUENCE"], o ∉ routines ∧ o ∈ plainObjects := by decide
  obtain ⟨hroutine, hplain⟩ := hall o ho
  rw [namesRoutine, if_neg hroutine, if_pos hplain]

theorem isStoredUnit_of_definition {o : String} (ho : o ∈ ["TABLE", "SEQUENCE"]) (ws : List String) :
    isStoredUnit ("CREATE" :: o :: ws) = false := by
  simp only [List.mem_cons, List.not_mem_nil, or_false] at ho
  rcases ho with rfl | rfl
  all_goals rfl

/-- No word starts a block in a definition. -/
theorem opensBlock_noteWord_of_definition {o : String} {ws : List String}
    (ho : o ∈ ["TABLE", "SEQUENCE"]) (hhead : s.head = "CREATE" :: o :: ws) (hdepth : s.depth = 0)
    (w : String) : (s.noteWord w).opensBlock = false := by
  have hmay : mayHoldBlock (s.noteWord w).head = false := by
    simp only [noteWord, hhead]
    split
    all_goals exact namesRoutine_of_definition ho _
  have hdepth' : (s.noteWord w).depth = 0 := hdepth
  unfold opensBlock
  rw [hmay, hdepth']
  simp

theorem length_le_wordBytes (cs : List Char) : cs.length ≤ (cs.flatMap wordBytes).length := by
  induction cs with
  | nil => exact Nat.le_refl 0
  | cons c cs ih =>
    have hpos := List.length_pos_iff.2 (wordBytes_ne_nil c)
    rw [List.flatMap_cons, List.length_append, List.length_cons]
    omega

theorem Defining.word (h : Defining rules k s) {cs : List Char} (hcs : cs ≠ [])
    (hcase : upper cs ≠ "CASE".toList) : Defining rules (k + cs.length) (take s (.word cs)).1 := by
  obtain ⟨o, ws, ho, hhead⟩ := h.head
  have hspoken : spoken cs ≠ "CASE" := by
    rw [Ne, spoken_eq_iff (by decide), Lexeme.keyword, ← String.toList_inj, String.toList_ofList]
    exact hcase
  have hhead' : (wordOnLine s cs).head = "CREATE" :: o :: ws := hhead
  have hopens := opensBlock_noteWord_of_definition (s := wordOnLine s cs) ho hhead' h.depth (spoken cs)
  have hdepth : (wordOnLine s cs).depth = 0 := h.depth
  have hpending : (wordOnLine s cs).pendingEnd = false := h.pending
  have hunit : (wordOnLine s cs).storedUnit = false := h.unit
  have hlength := length_le_wordBytes cs
  have hsettled := h.settled.take (.word cs)
  rw [take_word_of_decided h.settled h.pending hcs] at hsettled ⊢
  refine ⟨hsettled, h.under, ?_, ?_, ?_, ?_, ?_⟩
  · show ∃ o ws, o ∈ ["TABLE", "SEQUENCE"] ∧
      ((wordOnLine s cs).noteWord (spoken cs)).head = "CREATE" :: o :: ws
    simp only [noteWord, hhead']
    split
    case isTrue => exact ⟨o, ws ++ [spoken cs], ho, rfl⟩
    case isFalse => exact ⟨o, ws, ho, rfl⟩
  · show ((wordOnLine s cs).countWord (spoken cs)).depth = 0
    rw [countWord, nestWord, hopens]
    simp [hspoken, noteWord, hdepth]
  · show ((wordOnLine s cs).countWord (spoken cs)).pendingEnd = false
    simp [countWord, nestWord, noteWord, hdepth, hpending]
  · show ((wordOnLine s cs).noteWord (spoken cs)).storedUnit = false
    simp only [noteWord, hhead', hunit, List.cons_append, isStoredUnit_of_definition ho]
    simp
  · show LineFree rules ∨ s.lineQuoted = true ∨
      k + cs.length ≤ ((cs.flatMap wordBytes).reverse ++ s.line).length
    refine h.line.imp_right (Or.imp_right fun hline => ?_)
    rw [List.length_append, List.length_reverse]
    omega

theorem Defining.resetLine (h : Defining rules k s) (huncut : s.endLine.2 = false) {n : Nat}
    (hline : LineFree rules ∨ n = 0) : Through (Defining rules n) s [.blank '\n'] := by
  have hsettled := h.settled.take (.blank '\n')
  rw [take, if_pos rfl, resetLine_of_uncut huncut] at hsettled
  refine ⟨?_, ?_⟩
  · rw [takeAll, take, if_pos rfl, huncut]
    rfl
  · rw [takeAll, take, if_pos rfl, resetLine_of_uncut huncut]
    refine ⟨hsettled, h.under, h.head, h.depth, h.pending, h.unit, hline.imp_right fun hn => .inr ?_⟩
    rw [hn]
    exact Nat.zero_le _

theorem Defining.step (h : Defining rules k s) (hl : l.Formed rules) (hcalm : l.Calm rules) :
    Through (Defining rules (k + l.weight)) s [l] := by
  have hsettled := h.settled.take l
  cases l with
  | blank c =>
    by_cases hc : c = '\n'
    · subst hc
      have hfree : LineFree s.rules := by
        rw [h.under]
        exact hcalm rfl
      have huncut : s.endLine.2 = false := by
        rw [endLine, isTerminatorLine_of_lineFree hfree]
        rfl
      exact h.resetLine huncut (.inl (hcalm rfl))
    · refine ⟨?_, ?_⟩
      · rw [takeAll, take, if_neg hc]
        rfl
      · rw [takeAll, take, if_neg hc]
        exact h
  | word cs =>
    have hcs : cs ≠ [] := by
      rintro rfl
      cases hl
    exact ⟨rfl, h.word hcs hcalm⟩
  | punct c =>
    have huncut : (take s (.punct c)).2 = false := by rw [take_punct h.settled hcalm]
    refine ⟨by rw [takeAll, huncut]; rfl, ?_⟩
    rw [takeAll]
    rw [take_punct h.settled hcalm] at hsettled ⊢
    refine ⟨hsettled, h.under, h.head, h.depth, h.pending, h.unit, ?_⟩
    exact h.line.imp_right (Or.imp_right Nat.succ_le_succ)
  | quoted opening body =>
    exact ⟨rfl, hsettled, h.under, h.head, h.depth, h.pending, h.unit, .inr (.inl rfl)⟩
  | dollar | lineComment | blockComment => exact absurd hcalm id

/-- A definition goes on behind a line that has more on it than `GO`. -/
theorem Defining.newline (h : Defining rules k s) (hk : 3 ≤ k) :
    Through (Defining rules 0) s [.blank '\n'] := by
  have hline : s.isTerminatorLine = false := by
    refine not_isTerminatorLine_of_filled ?_
    rw [h.under]
    exact h.line.imp_right (Or.imp_right (Nat.le_trans hk))
  refine h.resetLine ?_ (.inr rfl)
  rw [endLine, hline]
  rfl

theorem Defining.run {ls : List Lexeme} (h : Defining rules k s) (hformed : ∀ l ∈ ls, l.Formed rules)
    (hcalm : ∀ l ∈ ls, l.Calm rules) : Through (Defining rules (k + weightOf ls)) s ls :=
  .of_weights (fun h => h.step) h hformed hcalm

/-- A definition ends at its `;`. -/
theorem Defining.cut (h : Defining rules k s) : (take s (.punct ';')).2 = true := by
  have hunit : (s.takePunct ';').storedUnit = false := h.unit
  have hdepth : (s.takePunct ';').settleEnd.depth = 0 := by
    simp [settleEnd, takePunct, pushLine, h.depth]
  rw [take, if_pos rfl, terminator, if_neg (by simp [hunit, hdepth])]

/-- A definition starts with two words. -/
theorem defining_create (d : Dialect) {o : String} (ho : o ∈ ["TABLE", "SEQUENCE"]) :
    Through (Defining d.rules 3) (fresh d.rules) [.word "CREATE".toList, .blank ' ', .word o.toList] := by
  have hall : ∀ d ∈ Dialect.all, ∀ o ∈ ["TABLE", "SEQUENCE"],
      let s := (takeAll (fresh d.rules) [.word "CREATE".toList, .blank ' ', .word o.toList]).1
      (s.region = .normal ∧ s.word = []) ∧ s.rules = d.rules ∧ s.head = ["CREATE", o] ∧ s.depth = 0 ∧
        s.pendingEnd = false ∧ s.storedUnit = false ∧ 3 ≤ s.line.length := by decide +kernel
  have hd : d ∈ Dialect.all := by cases d <;> decide
  obtain ⟨hsettled, hunder, hhead, hdepth, hpending, hunit, hline⟩ := hall d hd o ho
  exact ⟨rfl, ⟨hsettled.1, hsettled.2⟩, hunder, ⟨o, [], ho, hhead⟩, hdepth, hpending, hunit,
    .inr (.inr hline)⟩

/-- Line ends before a statement leave a scanner as it is. -/
theorem take_fresh_newline (rules : LexicalRules) :
    take (fresh rules) (.blank '\n') = (fresh rules, false) := by
  have hline : (fresh rules).isTerminatorLine = false := by
    simp [isTerminatorLine, fresh, upper]
  rw [take, if_pos rfl, endLine, hline]
  rfl

end DdlBridge.Statement
