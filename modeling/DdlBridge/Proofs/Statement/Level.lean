import DdlBridge.Proofs.Statement.CaseExpression
import DdlBridge.Proofs.Statement.Defining

/-!
# Open blocks

Only `BEGIN`, `CASE` and `END` move the number of open blocks, so a scanner keeps it through any other
lexemes (`Level.run`), a name that reads `BEGIN` among them. Outside every block a `;` ends the
statement (`Level.cut`); the block of a routine is open from its `BEGIN` on (`Level.enter`) and closed
at the `;` behind its `END` (`Level.leave`).
-/

namespace DdlBridge.Statement

open Scanner Text

variable {rules : LexicalRules} {s : Scanner} {l : Lexeme} {ls : List Lexeme} {k : Nat}
  {c : Char}

/-- `k` blocks are open, and no `END` is undecided. -/
structure Level (rules : LexicalRules) (k : Nat) (s : Scanner) : Prop where
  settled : Settled s
  under : s.rules = rules
  unit : s.storedUnit = false
  depth : s.depth = k
  decided : s.pendingEnd = false

/-- The words that open and close blocks. -/
def nestingWords : List String := ["BEGIN", "CASE", "END"]

theorem level_fresh (rules : LexicalRules) : Level rules 0 (fresh rules) :=
  ⟨⟨rfl, rfl⟩, rfl, rfl, rfl, rfl⟩

theorem Level.settled_depth (h : Level rules k s) : s.settleEnd.depth = k := by
  simp [settleEnd, h.decided, h.depth]

/-- Where no block may start, `BEGIN` is a name. -/
theorem opensBlock_of_not_admits (h : admits s.previous = false) (w : String) :
    (s.noteWord w).opensBlock = false := by
  have hprevious : ∀ b : Bool, (b && admits s.previous) = false := by simp [h]
  exact hprevious _

/-- A lexeme that opens and closes nothing where it stands, `;` outside every block apart. -/
structure Keeps (k : Nat) (s : Scanner) (l : Lexeme) : Prop where
  opens : l.keyword = "BEGIN" → admits s.previous = false
  closes : l.keyword ∉ ["CASE", "END"]
  semicolon : k ≠ 0 ∨ l ≠ .punct ';'

theorem Keeps.of_not_mem (hl : l.keyword ∉ nestingWords) (hk : k ≠ 0 ∨ l ≠ .punct ';') :
    Keeps k s l := by
  rw [nestingWords, List.mem_cons, not_or] at hl
  exact ⟨fun heq => absurd heq hl.1, hl.2, hk⟩

theorem Level.nesting_word (h : Level rules k s) (hslash : rules.slashLines = false) {cs : List Char}
    (hcs : cs ≠ []) (hkeeps : Keeps k s (.word cs)) :
    (take s (.word cs)).1.depth = k ∧ (take s (.word cs)).1.pendingEnd = false := by
  have hother := hkeeps.closes
  simp only [List.mem_cons, List.not_mem_nil, or_false, not_or] at hother
  obtain ⟨hcase, hend⟩ := hother
  rw [← spoken_eq_iff (by decide) cs] at hcase hend
  have hnot : ¬ (spoken cs = "CASE" ∨ (spoken cs = "BEGIN" ∧
      ((wordOnLine s cs).noteWord (spoken cs)).opensBlock = true)) := by
    rintro (heq | ⟨hbegin, hopens⟩)
    · exact hcase heq
    · have hname := hkeeps.opens ((spoken_eq_iff (by decide) cs).1 hbegin)
      rw [opensBlock_of_not_admits (s := wordOnLine s cs) hname] at hopens
      exact absurd hopens (by simp)
  have hslash' : (wordOnLine s cs).rules.slashLines = false := by
    rw [← hslash, ← h.under]
    rfl
  rw [take_word_of_decided h.settled h.decided hcs]
  constructor
  · show ((wordOnLine s cs).countWord (spoken cs)).depth = k
    rw [depth_countWord hslash', if_neg hnot]
    exact h.depth
  · show ((wordOnLine s cs).countWord (spoken cs)).pendingEnd = false
    have hdecided : (wordOnLine s cs).pendingEnd = false := h.decided
    rw [pendingEnd_countWord hslash', hdecided, beq_eq_false_iff_ne.2 hend]
    rfl

theorem Level.uncut (h : Level rules k s) (hfree : LineFree rules)
    (hk : k ≠ 0 ∨ l ≠ .punct ';') : (take s l).2 = false := by
  by_cases hl : l = .punct ';'
  · subst hl
    have hopen : (s.takePunct ';').settleEnd.depth ≠ 0 := by
      show s.settleEnd.depth ≠ 0
      rw [h.settled_depth]
      exact hk.resolve_right fun hne => hne rfl
    rw [take, if_pos rfl, terminator, if_pos (.inr hopen)]
  · exact take_uncut (h.under.symm ▸ hfree) hl

theorem Level.step (h : Level rules k s) (hfree : LineFree rules) (hl : l.Formed rules)
    (hkeeps : Keeps k s l) : Through (Level rules k) s [l] := by
  have huncut := h.uncut hfree hkeeps.semicolon
  have hslash : s.rules.slashLines = false := h.under.symm ▸ hfree.1
  have hnesting : (take s l).1.depth = k ∧ (take s l).1.pendingEnd = false := by
    cases hsettles : l.settles with
    | false =>
      obtain ⟨hdepth, hpending⟩ := nesting_take h.settled hsettles huncut
      exact ⟨hdepth.trans h.depth, hpending.trans h.decided⟩
    | true =>
      obtain rfl | ⟨cs, hcs, rfl⟩ := hl.settles_cases hsettles
      · obtain ⟨hdepth, hpending⟩ := nesting_semicolon huncut
        exact ⟨hdepth.trans h.settled_depth, hpending⟩
      · exact h.nesting_word hfree.1 hcs hkeeps
  refine ⟨by rw [takeAll, huncut]; rfl, ?_⟩
  exact ⟨h.settled.take l, (rules_take s l).trans h.under, storedUnit_take h.settled hslash hl h.unit,
    hnesting.1, hnesting.2⟩

theorem Level.run (h : Level rules k s) (hfree : LineFree rules) (hformed : ∀ l ∈ ls, l.Formed rules)
    (hwords : ∀ l ∈ ls, l.keyword ∉ nestingWords) (hk : k ≠ 0 ∨ .punct ';' ∉ ls) :
    Through (Level rules k) s ls := by
  induction ls generalizing s with
  | nil => exact ⟨rfl, h⟩
  | cons l ls ih =>
    rw [List.forall_mem_cons] at hformed hwords
    rw [List.mem_cons, not_or] at hk
    refine (h.step hfree hformed.1 (.of_not_mem hwords.1 (hk.imp_right fun hk => Ne.symm hk.1))).append
      fun t ht => ?_
    exact ih ht hformed.2 hwords.2 (hk.imp_right And.right)

/-- Outside every block a `;` ends the statement. -/
theorem Level.cut (h : Level rules 0 s) : (take s (.punct ';')).2 = true := by
  have hdepth : (s.takePunct ';').settleEnd.depth = 0 := h.settled_depth
  have hunit : (s.takePunct ';').storedUnit = false := h.unit
  rw [take, if_pos rfl, terminator, if_neg (by simp [hunit, hdepth])]

theorem Level.unit_word (h : Level rules k s) (hfree : LineFree rules) {cs : List Char}
    (hcs : cs ≠ []) : (take s (.word cs)).1.storedUnit = false := by
  have hslash : s.rules.slashLines = false := h.under.symm ▸ hfree.1
  rw [take_word h.settled hcs]
  exact (storedUnit_onWord (s := wordOnLine s cs) hslash _).trans h.unit

/-- The `BEGIN` of a routine opens a block. -/
theorem Level.enter (h : Level rules k s) (hfree : LineFree rules) (hstarted : Started s)
    (hadmits : (s.parens == 0 && admits s.previous) = true) (hl : l.keyword = "BEGIN") :
    Through (Level rules (k + 1)) s [l] := by
  obtain ⟨cs, hcs, rfl⟩ := Lexeme.exists_word_of_keyword hl (by decide)
  have hslash : s.rules.slashLines = false := h.under.symm ▸ hfree.1
  have hstep := wordStep h.settled hslash hcs
  rw [hl] at hstep
  refine ⟨rfl, ?_⟩
  have hunit := h.unit_word hfree hcs
  cases hstep with
  | suffix hpending => exact absurd (h.decided.symm.trans hpending) (by simp)
  | reopen hpending => exact absurd (h.decided.symm.trans hpending) (by simp)
  | count opens _ hopens hdepth hpending =>
    have hopen : opens = true := (hopens hstarted).trans hadmits
    rw [if_pos (.inr ⟨rfl, hopen⟩), h.settled_depth] at hdepth
    exact ⟨h.settled.take _, (rules_take s _).trans h.under, hunit, hdepth, hpending⟩

/-- The `;` behind the `END` of the only block ends the statement. -/
theorem Level.leave (h : Level rules 1 s) (hfree : LineFree rules) (hl : l.keyword = "END") :
    (take s l).2 = false ∧ (take (take s l).1 (.punct ';')).2 = true := by
  obtain ⟨cs, hcs, rfl⟩ := Lexeme.exists_word_of_keyword hl (by decide)
  have hslash : s.rules.slashLines = false := h.under.symm ▸ hfree.1
  have hstep := wordStep h.settled hslash hcs
  rw [hl] at hstep
  refine ⟨rfl, ?_⟩
  have hunit := h.unit_word hfree hcs
  cases hstep with
  | suffix hpending => exact absurd (h.decided.symm.trans hpending) (by simp)
  | reopen hpending => exact absurd (h.decided.symm.trans hpending) (by simp)
  | count opens _ _ hdepth hpending =>
    rw [if_neg (by simp), h.settled_depth] at hdepth
    rw [h.settled_depth] at hpending
    generalize (take s (.word cs)).1 = t at hunit hdepth hpending
    have hclosed : (t.takePunct ';').settleEnd.depth = 0 := by
      simp [settleEnd, takePunct, pushLine, hdepth, hpending]
    have hunit' : (t.takePunct ';').storedUnit = false := hunit
    rw [take, if_pos rfl, terminator, if_neg (by simp [hunit', hclosed])]

/-- Lexemes that a `;` ends, and only it, are one statement. -/
theorem split_of_through (hscript : Script rules (ls ++ [.punct ';']))
    (h : Through (fun s => (take s (.punct ';')).2 = true) (fresh rules) ls) {cs text : List Char}
    (htext : textOf ls = text) (hfirst : text = c :: cs) (hc : isBlank c = false)
    (htrim : trimEnd text = text) : Begins rules (text ++ [';']) ∧
      split rules (text ++ [';']) = .ok [⟨0, text⟩] := by
  have hbegins := Begins.cut ((cutsAt_semicolon hscript).trans h.behind)
  have hsplit := split_of_uncut hscript h.uncut
  rw [htext] at hbegins
  rw [textOf_concat, htext] at hsplit
  refine ⟨hbegins, hsplit.trans ?_⟩
  subst hfirst
  rw [ofPiece?_semicolon rules 0 hc, htrim]
  rfl

/-! ### The head of a routine -/

/-- A routine is named, no block is open and no parenthesis. -/
structure Heading (rules : LexicalRules) (s : Scanner) : Prop where
  level : Level rules 0 s
  started : Started s
  parens : s.parens = 0

/-- The lexeme is no punctuation, and no word that opens or closes a block. -/
def Lexeme.isQuiet : Lexeme → Bool
  | .punct _ => false
  | l => l.keyword ∉ nestingWords

theorem parens_take (hl : ∀ c, l ≠ .punct c) (huncut : (take s l).2 = false) :
    (take s l).1.parens = s.parens := by
  cases l with
  | blank c =>
    rw [take] at huncut ⊢
    by_cases hc : c = '\n'
    · rw [if_pos hc] at huncut ⊢
      rw [resetLine_of_uncut huncut]
      rfl
    · rw [if_neg hc]
  | word cs =>
    rw [take]
    dsimp only
    rw [parens_endWord]
    rfl
  | punct c => exact absurd rfl (hl c)
  | quoted | dollar | lineComment => rfl
  | blockComment body =>
    dsimp only [take]
    split
    · rfl
    · rfl

theorem Heading.step (h : Heading rules s) (hfree : LineFree rules) (hl : l.Formed rules)
    (hpunct : ∀ c, l ≠ .punct c) (hopens : l.keyword = "BEGIN" → admits s.previous = false)
    (hcloses : l.keyword ∉ ["CASE", "END"]) : Through (Heading rules) s [l] := by
  have hkeeps : Keeps 0 s l := ⟨hopens, hcloses, .inr (hpunct ';')⟩
  obtain ⟨huncut, hlevel⟩ := h.level.step hfree hl hkeeps
  have hfirst : (take s l).2 = false := h.level.uncut hfree hkeeps.semicolon
  exact ⟨huncut, hlevel, h.started.step h.level.settled hl hfirst,
    (parens_take hpunct hfirst).trans h.parens⟩

theorem Heading.run (h : Heading rules s) (hfree : LineFree rules) (hformed : ∀ l ∈ ls, l.Formed rules)
    (hquiet : ∀ l ∈ ls, l.isQuiet = true) : Through (Heading rules) s ls := by
  induction ls generalizing s with
  | nil => exact ⟨rfl, h⟩
  | cons l ls ih =>
    rw [List.forall_mem_cons] at hformed hquiet
    have hpunct : ∀ c, l ≠ .punct c := by
      rintro c rfl
      exact absurd hquiet.1 (by simp [Lexeme.isQuiet])
    have hwords : l.keyword ∉ nestingWords := by
      cases l with
      | punct c => exact absurd rfl (hpunct c)
      | _ => exact of_decide_eq_true hquiet.1
    rw [nestingWords, List.mem_cons, not_or] at hwords
    refine (h.step hfree hformed.1 hpunct (fun heq => absurd heq hwords.1) hwords.2).append
      fun t ht => ?_
    exact ih ht hformed.2 hquiet.2

theorem previous_word (hs : Settled s) {cs : List Char} (hcs : cs ≠ []) :
    (take s (.word cs)).1.previous = .word (spoken cs) := by rw [take_word hs hcs]

theorem previous_blank (huncut : (take s (.blank c)).2 = false) :
    (take s (.blank c)).1.previous = s.previous := by
  rw [take] at huncut ⊢
  by_cases hc : c = '\n'
  · rw [if_pos hc] at huncut ⊢
    rw [resetLine_of_uncut huncut]
    rfl
  · rw [if_neg hc]

end DdlBridge.Statement
