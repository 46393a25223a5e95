import DdlBridge.Proofs.Statement.Tracking

/-!
# `CASE` expressions

A scanner counts the `CASE` expressions of a statement. It loses count where the word behind an `END`
is one that `END` goes with in procedural code (`Continues`): then the statement goes on behind its
`;`. Without such a word it ends there (`CasesMatch.ends_at_semicolon`).
-/

namespace DdlBridge.Statement

open Scanner Text

variable {rules : LexicalRules} {s : Scanner} {c : Context} {l : Lexeme}

/-- The `CASE` expressions open behind a lexeme; none where an `END` has none to close. -/
def countCase (n : Nat) (l : Lexeme) : Option Nat :=
  if l.keyword = "CASE" then some (n + 1)
  else if l.keyword = "END" then (if n = 0 then none else some (n - 1))
  else some n

def openCases (n : Nat) (ls : List Lexeme) : Option Nat := ls.foldlM countCase n

/-- A statement without `;` and `BEGIN` in which every `CASE` has its `END`. -/
structure CasesMatch (ls : List Lexeme) : Prop where
  semicolon : .punct ';' ∉ ls
  begins : ∀ l ∈ ls, l.keyword ≠ "BEGIN"
  cases : openCases 0 ls = some 0

/-- The word behind an `END` is one of `IF`, `LOOP`, `WHILE` and `REPEAT`. -/
def Continues (c : Context) (l : Lexeme) : Prop := c.undecided = true ∧ l.keyword ∈ endSuffixes

/-- The word behind an `END` is `CASE`. -/
def Reopens (c : Context) (l : Lexeme) : Prop := c.undecided = true ∧ l.keyword = "CASE"

instance (c : Context) (l : Lexeme) : Decidable (Continues c l) :=
  inferInstanceAs (Decidable (_ ∧ _))

instance (c : Context) (l : Lexeme) : Decidable (Reopens c l) :=
  inferInstanceAs (Decidable (_ ∧ _))

theorem openCases_cons {n m : Nat} {ls : List Lexeme} (h : openCases n (l :: ls) = some m) :
    ∃ k, countCase n l = some k ∧ openCases k ls = some m := by
  rw [openCases, List.foldlM_cons] at h
  exact Option.bind_eq_some_iff.1 h

/-! ### One lexeme -/

theorem storedUnit_take (hs : Settled s) (hslash : s.rules.slashLines = false) (hl : l.Formed rules)
    (h : s.storedUnit = false) : (take s l).1.storedUnit = false := by
  cases hl with
  | @blank ch =>
    rw [take]
    split
    · unfold endLine
      split
      · rfl
      · exact h
    · exact h
  | @word ch cs =>
    rw [take_word hs (by simp)]
    exact (storedUnit_onWord (s := wordOnLine s (ch :: cs)) hslash _).trans h
  | @punct ch =>
    by_cases hch : ch = ';'
    · subst hch
      rw [take, if_pos rfl, terminator]
      split
      · exact h
      · rfl
    · rw [take_punct hs hch]
      exact h
  | quoted | dollar | lineComment => exact h
  | blockComment =>
    dsimp only [take]
    split
    · exact h
    · exact h

/-- What settles nothing keeps the count, or ends a statement and with it the count. -/
theorem nesting_take_or (hs : Settled s) (hl : l.settles = false) :
    ((take s l).1.depth = s.depth ∧ (take s l).1.pendingEnd = s.pendingEnd) ∨
      ((take s l).1.depth = 0 ∧ (take s l).1.pendingEnd = false) := by
  cases hcut : (take s l).2 with
  | false => exact .inl (nesting_take hs hl hcut)
  | true =>
    cases l with
    | blank ch =>
      right
      rw [take] at hcut ⊢
      split at hcut
      case isTrue hch =>
        rw [if_pos hch]
        unfold endLine at hcut ⊢
        split
        case isTrue => exact ⟨rfl, rfl⟩
        case isFalse hline => exact absurd hcut (by simp [hline])
      case isFalse => exact absurd hcut (by simp)
    | punct ch =>
      have hch : ch ≠ ';' := fun heq => absurd hl (by simp [Lexeme.settles, heq])
      rw [take_punct hs hch] at hcut
      exact absurd hcut (by simp)
    | word | quoted | dollar | lineComment | blockComment => exact absurd hcut (by simp [take])

theorem settled_eq_of_nesting {s' : Scanner} (hdepth : s'.depth = s.depth)
    (hpending : s'.pendingEnd = s.pendingEnd) : s'.settleEnd.depth = s.settleEnd.depth := by
  simp only [settleEnd, hdepth, hpending]

/-- What a word other than `BEGIN` does to the count once an `END` is decided. -/
theorem WordStep.settled {s' : Scanner} {w : String} (h : WordStep s s' w) (hbegin : w ≠ "BEGIN")
    (hnot : ¬ (s.pendingEnd = true ∧ w ∈ endSuffixes)) :
    s'.pendingEnd = (w == "END" && s.settleEnd.depth != 0) ∧
      s'.settleEnd.depth =
        if w = "CASE" then (if s.pendingEnd = true then s.settleEnd.depth else s.settleEnd.depth + 1)
        else if w = "END" then s.settleEnd.depth - 1
        else s.settleEnd.depth := by
  cases h with
  | suffix hpending hw => exact absurd ⟨hpending, hw⟩ hnot
  | reopen hpending hw hdepth hdecided =>
    subst hw
    refine ⟨hdecided, ?_⟩
    rw [if_pos rfl, if_pos hpending]
    simp only [settleEnd, hdecided, hpending, hdepth]
    rfl
  | count opens hother _ hdepth hpending =>
    have hopen : (w = "CASE" ∨ (w = "BEGIN" ∧ opens = true)) ↔ w = "CASE" := by simp [hbegin]
    rw [if_congr hopen rfl rfl] at hdepth
    refine ⟨hpending, ?_⟩
    show (if s'.pendingEnd = true then s'.depth - 1 else s'.depth) = _
    rw [hpending, hdepth]
    by_cases hcase : w = "CASE"
    · subst hcase
      have hdecided : ¬ s.pendingEnd = true := fun htrue => hother ⟨htrue, .inr rfl⟩
      rw [if_pos rfl, if_pos rfl, if_neg hdecided]
      rfl
    · rw [if_neg hcase, if_neg hcase]
      by_cases hend : w = "END"
      · subst hend
        rw [if_pos rfl]
        by_cases hzero : s.settleEnd.depth = 0
        · simp [hzero]
        · simp [hzero]
      · rw [if_neg hend, beq_eq_false_iff_ne.2 hend]
        rfl

theorem countCase_of_settles {n : Nat} (hl : l.settles = false) : countCase n l = some n := by
  have hkeyword : l.keyword = "" := by
    cases l with
    | word => exact absurd hl (by simp [Lexeme.settles])
    | _ => rfl
  rw [countCase, hkeyword]
  rfl

/-- What a word does to the `CASE` expressions that are open. -/
inductive CountCase (n : Nat) (w : String) : Nat → Prop where
  | opened (hw : w = "CASE") : CountCase n w (n + 1)
  | closed (hw : w = "END") (hn : n ≠ 0) : CountCase n w (n - 1)
  | kept (hcase : w ≠ "CASE") (hend : w ≠ "END") : CountCase n w n

theorem countCase_cases {n m : Nat} (h : countCase n l = some m) : CountCase n l.keyword m := by
  unfold countCase at h
  split at h
  case isTrue hcase =>
    obtain rfl := Option.some.inj h
    exact .opened hcase
  case isFalse hcase =>
    split at h
    case isTrue hend =>
      split at h
      case isTrue => exact absurd h (by simp)
      case isFalse hn =>
        obtain rfl := Option.some.inj h
        exact .closed hend hn
    case isFalse hend =>
      obtain rfl := Option.some.inj h
      exact .kept hcase hend

/-! ### No more blocks than `CASE` expressions -/

/-- The scanner counts at most the open `CASE` expressions. -/
structure Within (c : Context) (n : Nat) (s : Scanner) : Prop where
  settled : Settled s
  slash : s.rules.slashLines = false
  unit : s.storedUnit = false
  depth : s.settleEnd.depth ≤ n
  pending : s.pendingEnd = true → c.undecided = true

theorem Within.step_gap {n : Nat} (h : Within c n s) (hl : l.Formed rules)
    (hsettles : l.settles = false) : Within (c.step l) n (take s l).1 := by
  have hslash : (take s l).1.rules.slashLines = false := by rw [rules_take, h.slash]
  have hkept := Context.At.of_not_settles (c := c) (l := l) ⟨rfl, rfl⟩ hsettles
  refine ⟨h.settled.take l, hslash, storedUnit_take h.settled h.slash hl h.unit, ?_, fun hnow => ?_⟩
  · rcases nesting_take_or h.settled hsettles with ⟨hdepth, hpending⟩ | ⟨hdepth, hpending⟩
    · rw [settled_eq_of_nesting hdepth hpending]
      exact h.depth
    · simp [settleEnd, hdepth, hpending]
  · rw [hkept.undecided]
    rcases nesting_take_or h.settled hsettles with ⟨-, hsame⟩ | ⟨-, hnone⟩
    · exact h.pending (hsame ▸ hnow)
    · exact absurd (hnone.symm.trans hnow) (by simp)

theorem Within.step_word {n m : Nat} {cs : List Char} (h : Within c n s)
    (hl : (Lexeme.word cs).Formed rules) (hcs : cs ≠ [])
    (hbegin : (Lexeme.word cs).keyword ≠ "BEGIN") (hread : ¬ Continues c (.word cs))
    (hcount : CountCase n (Lexeme.word cs).keyword m) :
    Within (c.step (.word cs)) m (take s (.word cs)).1 := by
  have hslash : (take s (.word cs)).1.rules.slashLines = false := by rw [rules_take, h.slash]
  obtain ⟨hpending, hdepth⟩ := (wordStep h.settled h.slash hcs).settled hbegin fun hsuffix =>
    hread ⟨h.pending hsuffix.1, hsuffix.2⟩
  have hle := h.depth
  refine ⟨h.settled.take _, hslash, storedUnit_take h.settled h.slash hl h.unit, ?_, fun hnow => ?_⟩
  · rw [hdepth]
    cases hcount with
    | opened hw =>
      rw [if_pos hw]
      split
      all_goals omega
    | closed hw hn =>
      rw [if_neg (by simp [hw]), if_pos hw]
      omega
    | kept hcase hend =>
      rw [if_neg hcase, if_neg hend]
      exact hle
  · rw [hpending, Bool.and_eq_true] at hnow
    exact (nest_of_not hread).2.trans hnow.1

theorem Within.step {n m : Nat} (h : Within c n s) (hl : l.Formed rules) (hsemicolon : l ≠ .punct ';')
    (hbegin : l.keyword ≠ "BEGIN") (hread : ¬ Continues c l) (hcount : countCase n l = some m) :
    Within (c.step l) m (take s l).1 := by
  cases hsettles : l.settles with
  | false =>
    rw [countCase_of_settles hsettles] at hcount
    obtain rfl := Option.some.inj hcount
    exact h.step_gap hl hsettles
  | true =>
    obtain rfl | ⟨cs, hcs, rfl⟩ := hl.settles_cases hsettles
    · exact absurd rfl hsemicolon
    · exact h.step_word hl hcs hbegin hread (countCase_cases hcount)

theorem within_run {n m : Nat} {ls : List Lexeme} (hformed : ∀ l ∈ ls, l.Formed rules)
    (hsemicolon : .punct ';' ∉ ls) (hbegins : ∀ l ∈ ls, l.keyword ≠ "BEGIN")
    (hread : ¬ Meets Continues c ls) (hcases : openCases n ls = some m) (h : Within c n s) :
    Within (c.after ls) m (takeAll s ls).1 := by
  induction ls generalizing c s n with
  | nil =>
    obtain rfl := Option.some.inj hcases
    exact h
  | cons l ls ih =>
    rw [meets_cons, not_or] at hread
    rw [List.mem_cons, not_or] at hsemicolon
    obtain ⟨k, hcount, hrest⟩ := openCases_cons hcases
    have hstep := h.step (hformed l List.mem_cons_self) (fun heq => hsemicolon.1 heq.symm)
      (hbegins l List.mem_cons_self) hread.1 hcount
    exact ih (fun l' hmem => hformed l' (List.mem_cons_of_mem _ hmem)) hsemicolon.2
      (fun l' hmem => hbegins l' (List.mem_cons_of_mem _ hmem)) hread.2 hrest hstep

/-! ### Blocks that no `END` closes -/

/-- The scanner counts the open `CASE` expressions and `extra` blocks that no `END` closes. -/
structure Counts (c : Context) (n extra : Nat) (s : Scanner) : Prop where
  depth : s.settleEnd.depth = n + extra
  pending : s.pendingEnd = c.undecided
  opened : s.pendingEnd = true → s.depth ≠ 0

theorem Counts.step_gap {n extra : Nat} (h : Counts c n extra s) (hs : Settled s)
    (hl : l.settles = false) (huncut : (take s l).2 = false) :
    Counts (c.step l) n extra (take s l).1 := by
  obtain ⟨hdepth, hpending⟩ := nesting_take hs hl huncut
  have hkept := Context.At.of_not_settles (c := c) (l := l) ⟨rfl, rfl⟩ hl
  refine ⟨?_, ?_, ?_⟩
  · rw [settled_eq_of_nesting hdepth hpending]
    exact h.depth
  · rw [hpending, hkept.undecided]
    exact h.pending
  · rw [hpending, hdepth]
    exact h.opened

theorem Counts.step_continues {n extra : Nat} {s' : Scanner} {w : String} (h : Counts c n extra s)
    (hstep : WordStep s s' w) (hundecided : c.undecided = true) (hw : w ∈ endSuffixes) :
    Counts (c.nest w) n (extra + 1) s' := by
  have hpending : s.pendingEnd = true := h.pending.trans hundecided
  obtain ⟨hcase, -, -⟩ := not_opening_of_suffix hw
  have hopened := h.opened hpending
  have hdepth := h.depth
  simp only [settleEnd, hpending, if_true] at hdepth
  rw [nest_of_suffix hundecided hw]
  cases hstep with
  | suffix _ _ hsame hdecided =>
    refine ⟨?_, hdecided, fun htrue => absurd (hdecided.symm.trans htrue) (by simp)⟩
    simp only [settleEnd, hdecided, hsame]
    simp
    omega
  | reopen _ heq => exact absurd heq hcase
  | count _ hnot => exact absurd ⟨hpending, .inl hw⟩ hnot

theorem WordStep.depth_ne_zero {s' : Scanner} {w : String} (h : WordStep s s' w)
    (hpending : s'.pendingEnd = true) : s'.depth ≠ 0 := by
  cases h with
  | suffix _ _ _ hdecided => exact absurd (hdecided.symm.trans hpending) (by simp)
  | reopen _ _ _ hdecided => exact absurd (hdecided.symm.trans hpending) (by simp)
  | count opens _ _ hdepth hend =>
    rw [hend, Bool.and_eq_true, beq_iff_eq, bne_iff_ne] at hpending
    obtain ⟨rfl, hopen⟩ := hpending
    rwa [hdepth, if_neg (by simp)]

theorem Counts.step_word {n m extra : Nat} {s' : Scanner} {w : String} (h : Counts c n extra s)
    (hstep : WordStep s s' w) (hbegin : w ≠ "BEGIN")
    (hcontinues : ¬ (c.undecided = true ∧ w ∈ endSuffixes))
    (hreopens : ¬ (c.undecided = true ∧ w = "CASE")) (hcount : CountCase n w m) :
    Counts (c.nest w) m extra s' := by
  obtain ⟨hpending, hdepth⟩ := hstep.settled hbegin (by rwa [h.pending])
  obtain ⟨-, hundecided⟩ := nest_of_not hcontinues
  rw [h.depth] at hpending hdepth
  rw [h.pending] at hdepth
  cases hcount with
  | opened hw =>
    have hdecided : ¬ c.undecided = true := fun htrue => hreopens ⟨htrue, hw⟩
    rw [if_pos hw, if_neg hdecided] at hdepth
    refine ⟨by omega, ?_, hstep.depth_ne_zero⟩
    rw [hpending, hundecided, hw]
    rfl
  | closed hw hn =>
    have hsome : (n + extra != 0) = true := by
      rw [bne_iff_ne]
      omega
    rw [if_neg (by simp [hw]), if_pos hw] at hdepth
    refine ⟨by omega, ?_, hstep.depth_ne_zero⟩
    rw [hpending, hundecided, hsome, Bool.and_true]
  | kept hcase hend =>
    rw [if_neg hcase, if_neg hend] at hdepth
    refine ⟨hdepth, ?_, hstep.depth_ne_zero⟩
    rw [hpending, hundecided, beq_eq_false_iff_ne.2 hend, Bool.false_and]

/-- One lexeme leaves the blocks that no `END` closes, and a misread `END` adds one to them. -/
theorem Counts.step {n m extra : Nat} (hslash : rules.slashLines = false) (hl : l.Formed rules)
    (hsemicolon : l ≠ .punct ';') (hbegin : l.keyword ≠ "BEGIN") (hreopens : ¬ Reopens c l)
    (hcount : countCase n l = some m) (hsees : Sees rules c s) (huncut : (take s l).2 = false)
    (h : Counts c n extra s) : ∃ more, Counts (c.step l) m more (take s l).1 ∧ extra ≤ more ∧
      (Continues c l → extra < more) := by
  cases hsettles : l.settles with
  | false =>
    rw [countCase_of_settles hsettles] at hcount
    obtain rfl := Option.some.inj hcount
    refine ⟨extra, h.step_gap hsees.settled hsettles huncut, Nat.le_refl _, fun hread => ?_⟩
    cases l with
    | word => exact absurd hsettles (by simp [Lexeme.settles])
    | _ => exact absurd hread.2 (by simp [Lexeme.keyword, endSuffixes])
  | true =>
    obtain rfl | ⟨cs, hcs, rfl⟩ := hl.settles_cases hsettles
    · exact absurd rfl hsemicolon
    have hword := hsees.wordStep hslash hcs
    by_cases hread : Continues c (.word cs)
    · have hcounts := h.step_continues hword hread.1 hread.2
      obtain ⟨hcase, -, hend⟩ := not_opening_of_suffix hread.2
      rw [countCase, if_neg hcase, if_neg hend] at hcount
      obtain rfl := Option.some.inj hcount
      exact ⟨extra + 1, ⟨hcounts.depth, hcounts.pending, hcounts.opened⟩, by omega, fun _ => by omega⟩
    · have hcounts := h.step_word hword hbegin hread hreopens (countCase_cases hcount)
      exact ⟨extra, ⟨hcounts.depth, hcounts.pending, hcounts.opened⟩, Nat.le_refl _,
        fun hmeets => absurd hmeets hread⟩

/-- A statement that has no line of its own to end it is uncut up to its `;`, and the scanner counts
one block for every `END` that it misreads. -/
theorem counts_run (hslash : rules.slashLines = false) {n m extra : Nat} {ls : List Lexeme}
    (hformed : ∀ l ∈ ls, l.Formed rules) (hsemicolon : .punct ';' ∉ ls)
    (hbegins : ∀ l ∈ ls, l.keyword ≠ "BEGIN") (hreopens : ¬ Meets Reopens c ls)
    (hgo : ¬ Meets (GoLine rules) c ls) (hcases : openCases n ls = some m) (hsees : Sees rules c s)
    (h : Counts c n extra s) : (takeAll s ls).2 = false ∧ ∃ more,
      Counts (c.after ls) m more (takeAll s ls).1 ∧ extra ≤ more ∧
      (Meets Continues c ls → extra < more) := by
  induction ls generalizing c s n extra with
  | nil =>
    obtain rfl := Option.some.inj hcases
    exact ⟨rfl, extra, h, Nat.le_refl _, fun hmeets => absurd hmeets (not_meets_nil _ _)⟩
  | cons l ls ih =>
    rw [meets_cons, not_or] at hreopens hgo
    rw [List.mem_cons, not_or] at hsemicolon
    obtain ⟨k, hcount, hrest⟩ := openCases_cons hcases
    have hl := hformed l List.mem_cons_self
    have hne : l ≠ .punct ';' := fun heq => hsemicolon.1 heq.symm
    have huncut : (take s l).2 = false := by
      rw [Bool.eq_false_iff]
      intro hcut
      rcases (take_cut_iff hslash hsees).1 hcut with hline | ⟨heq, -⟩
      · exact hgo.1 hline
      · exact hne heq
    obtain ⟨step, hstep, hstepLe, hstepLt⟩ := h.step hslash hl hne (hbegins l List.mem_cons_self)
      hreopens.1 hcount hsees huncut
    obtain ⟨hlater, more, hmore, hmoreLe, hmoreLt⟩ :=
      ih (fun l' hmem => hformed l' (List.mem_cons_of_mem _ hmem)) hsemicolon.2
        (fun l' hmem => hbegins l' (List.mem_cons_of_mem _ hmem)) hreopens.2 hgo.2 hrest
        (hsees.step hslash hl huncut) hstep
    refine ⟨by rw [takeAll, huncut, hlater]; rfl, more, hmore, by omega, fun hmeets => ?_⟩
    rcases (meets_cons c l ls).1 hmeets with hnow | hthen
    · exact Nat.lt_of_lt_of_le (hstepLt hnow) hmoreLe
    · exact Nat.lt_of_le_of_lt hstepLe (hmoreLt hthen)

/-! ### What follows a statement -/

/-- A text whose first word does not start with `G` has no first line that ends a statement. -/
theorem joined_of_word {done w rest : List Char} {ch : Char} (hw : ∀ b ∈ w, b ∈ plainBlanks)
    (hword : opensWord ch = true) (hg : ch.toUpper ≠ 'G') : Joined rules done (w ++ ch :: rest) := by
  have hblank : ch ∉ plainBlanks := by
    intro hmem
    simp only [plainBlanks, List.mem_cons, List.not_mem_nil, or_false] at hmem
    rcases hmem with rfl | rfl | rfl | rfl | rfl
    all_goals exact absurd hword (by decide)
  rintro u v more - htext hv
  rcases List.append_eq_append_iff.1 htext with ⟨front, rfl, hrest⟩ | ⟨front, rfl, hrest⟩
  · cases front with
    | nil =>
      refine not_cutsAt_blanks fun d hd => ?_
      rw [List.append_nil] at hd
      rcases List.mem_append.1 hd with hd | hd
      · exact hw d hd
      · rw [List.mem_singleton.1 hd]
        decide
    | cons d front =>
      obtain ⟨rfl, rfl⟩ := List.cons.inj hrest
      have hfront : '\n' ∉ ch :: front := fun hmem => hv (List.mem_append_right _ hmem)
      rw [cutsAt, after_append_eq, after_blanks rules hw]
      refine not_cut_of_other hfront hblank ?_ ?_ hg
      · rintro rfl
        exact absurd hword (by decide)
      · rintro rfl
        exact absurd hword (by decide)
  · refine not_cutsAt_blanks fun d hd => ?_
    rcases List.mem_append.1 hd with hd | hd
    · exact hw d (List.mem_append_left _ hd)
    · rw [List.mem_singleton.1 hd]
      decide

/-- Behind a `;` that ends a statement the rest of the text is split on its own. -/
theorem split_behind_semicolon {d : Dialect} {ls : List Lexeme}
    (hscript : Script d.rules (ls ++ [.punct ';']))
    (hcut : (take (takeAll (fresh d.rules) ls).1 (.punct ';')).2 = true) : ∃ old,
      split d.rules (textOf (ls ++ [.punct ';'])) = .ok old ∧
      ∀ w ch rest, (∀ b ∈ w, b ∈ plainBlanks) → opensWord ch = true → ch.toUpper ≠ 'G' →
        split d.rules (textOf (ls ++ [.punct ';']) ++ (w ++ ch :: rest)) =
          (split d.rules (w ++ ch :: rest)).map fun new =>
            old ++ new.map (moved (width (textOf (ls ++ [.punct ';'])))) := by
  have htext : textOf (ls ++ [.punct ';']) = textOf ls ++ [';'] := by simp [textOf, Lexeme.text]
  have hbegins : Begins d.rules (textOf ls ++ [';']) := by
    refine .cut ?_
    rw [cutsAt, after_eq_feedText, feedChar_semicolon hscript, hcut]
  rw [htext]
  refine ⟨_, split_of_begins hbegins, fun w ch rest hw hword hg => ?_⟩
  exact split_append (lineFree_or d) hbegins (.inl (joined_of_word hw hword hg))

namespace CasesMatch

variable {d : Dialect} {front : List Lexeme}

/-- A statement whose `CASE` expressions match ends at its `;`, and what follows it is split on its
own, if no `END` of it is taken for the end of an `IF` or a loop. With such an `END` the statement
goes on behind its `;`. -/
theorem ends_at_semicolon (h : CasesMatch front) (hd : d ≠ .oracle)
    (hscript : Script d.rules (front ++ [.punct ';'])) :
    (¬ Meets Continues {} front →
      ⟨(encode (textOf front)).length, true⟩ ∈
          (scan d.rules (encode (textOf (front ++ [.punct ';'])))).boundaries ∧
        ∃ old, split d.rules (textOf (front ++ [.punct ';'])) = .ok old ∧
          ∀ w ch rest, (∀ b ∈ w, b ∈ plainBlanks) → opensWord ch = true → ch.toUpper ≠ 'G' →
            split d.rules (textOf (front ++ [.punct ';']) ++ (w ++ ch :: rest)) =
              (split d.rules (w ++ ch :: rest)).map fun new =>
                old ++ new.map (moved (width (textOf (front ++ [.punct ';']))))) ∧
    (Meets Continues {} front → ¬ Meets Reopens {} front → ¬ Meets (GoLine d.rules) {} front →
      (scan d.rules (encode (textOf (front ++ [.punct ';'])))).boundaries = []) := by
  have hslash : d.rules.slashLines = false := by
    cases d with
    | oracle => exact absurd rfl hd
    | _ => rfl
  have hformed : ∀ l ∈ front, l.Formed d.rules := fun l hl =>
    hscript.formed l (List.mem_append_left _ hl)
  constructor
  · intro hread
    have hfresh : Within {} 0 (fresh d.rules) :=
      ⟨⟨rfl, rfl⟩, hslash, rfl, Nat.le_refl _, fun htrue => absurd htrue (by simp [fresh])⟩
    have hwithin := within_run hformed h.semicolon h.begins hread h.cases hfresh
    have hdepth : (takeAll (fresh d.rules) front).1.settleEnd.depth = 0 :=
      Nat.le_zero.1 hwithin.depth
    have hcut : (take (takeAll (fresh d.rules) front).1 (.punct ';')).2 = true := by
      have hmid : ((takeAll (fresh d.rules) front).1.takePunct ';').settleEnd.depth = 0 := hdepth
      rw [take, if_pos rfl, terminator, hmid, if_neg (by simp [takePunct, pushLine, hwithin.unit])]
    exact ⟨(mem_boundaries_script_iff hscript).2 hcut, split_behind_semicolon hscript hcut⟩
  · intro hread hreopens hgo
    have hfresh : Counts {} 0 0 (fresh d.rules) :=
      ⟨rfl, rfl, fun htrue => absurd htrue (by simp [fresh])⟩
    obtain ⟨huncut, more, hcounts, -, hmore⟩ := counts_run hslash hformed h.semicolon h.begins hreopens
      hgo h.cases (sees_fresh d.rules) hfresh
    have hopen : (takeAll (fresh d.rules) front).1.settleEnd.depth ≠ 0 := by
      have hpos := hmore hread
      rw [hcounts.depth]
      omega
    have hsees := sees_run hslash hformed (sees_fresh d.rules) huncut
    have hkept : (take (takeAll (fresh d.rules) front).1 (.punct ';')).2 = false := by
      rw [Bool.eq_false_iff]
      intro hcut
      rcases (take_cut_iff hslash hsees).1 hcut with hline | ⟨-, hzero⟩
      · exact absurd hline.newline (by simp)
      · exact hopen hzero
    refine (boundaries_scan d.rules _).1 ?_
    have hflag := (feedText_fresh hscript).2
    rw [takeAll_concat, huncut, hkept] at hflag
    exact hflag

/-- `SELECT CASE a END, f(b)` -/
def caseThenCall (f : String) : List Lexeme :=
  .word "SELECT".toList :: (spaced ["CASE", "a", "END"] ++
    [.punct ',', .blank ' ', .word f.toList, .punct '(', .word ['b'], .punct ')'])

theorem casesMatch_caseThenCall :
    CasesMatch (caseThenCall "f") ∧ CasesMatch (caseThenCall "IF") :=
  ⟨⟨by decide, by decide, by decide⟩, ⟨by decide, by decide, by decide⟩⟩

theorem ends_at_semicolon_two_calls :
    (¬ Meets Continues {} (caseThenCall "f") ∧ ⟨23, true⟩ ∈
      (scan Dialect.mysql.rules (encode (textOf (caseThenCall "f" ++ [.punct ';'])))).boundaries) ∧
    Meets Continues {} (caseThenCall "IF") ∧
      (scan Dialect.mysql.rules (encode (textOf (caseThenCall "IF" ++ [.punct ';'])))).boundaries = [] := by
  have hf := casesMatch_caseThenCall.1.ends_at_semicolon (d := .mysql) (by decide)
    (script_of_isScript (by decide))
  have hif := casesMatch_caseThenCall.2.ends_at_semicolon (d := .mysql) (by decide)
    (script_of_isScript (by decide))
  have hgo : ¬ Meets (GoLine Dialect.mysql.rules) {} (caseThenCall "IF") :=
    not_meets_of_forall fun _ _ _ hline => absurd hline.goLines (by decide)
  refine ⟨⟨by decide, ?_⟩, by decide, hif.2 (by decide) (by decide) hgo⟩
  exact (hf.1 (by decide)).1

end CasesMatch

end DdlBridge.Statement
