import DdlBridge.Proofs.Statement.Defining
import DdlBridge.Proofs.Statement.MarkedLine
import DdlBridge.Proofs.Statement.Unbroken

/-!
# Stored units

A stored unit goes on until a line ends it (`cutFree_append_of_unit`), and its text is read alike
behind any front, as long as no line of the text is a terminator (`cutFree_of_cutFree`).
-/

namespace DdlBridge.Scanner

/-! ### The flag -/

theorem storedUnit_onWord_of_unit {s : Scanner} (h : s.storedUnit = true) (w : String) :
    (s.onWord w).storedUnit = true := by
  have hcount : ∀ t : Scanner, t.storedUnit = true → (t.countWord w).storedUnit = true := by
    intro t ht
    simp [countWord, nestWord, noteWord, ht]
  unfold onWord
  split
  · dsimp only
    split
    · exact h
    · split
      · exact h
      · exact hcount _ h
  · exact hcount _ h

theorem storedUnit_endWord {s : Scanner} (h : s.storedUnit = true) : s.endWord.storedUnit = true := by
  unfold endWord
  split
  · exact h
  · exact storedUnit_onWord_of_unit (s := { s with word := [] }) h _

theorem terminator_of_unit {s : Scanner} (h : s.storedUnit = true) :
    s.terminator = (s.settleEnd, false) :=
  if_pos (.inl h)

theorem storedUnit_endLine {s : Scanner} (h : s.storedUnit = true) (huncut : s.endLine.2 = false) :
    s.endLine.1.storedUnit = true := by
  unfold endLine at huncut ⊢
  split at huncut
  case isTrue => exact absurd huncut (by simp)
  case isFalse hline =>
    rw [if_neg hline]
    exact h

theorem storedUnit_stepSymbol {s : Scanner} (h : s.storedUnit = true) {c : Char}
    (huncut : (s.stepSymbol c).2 = false) : (s.stepSymbol c).1.storedUnit = true := by
  unfold stepSymbol at huncut ⊢
  split at huncut
  case h_1 => exact storedUnit_endLine h huncut
  case h_6 =>
    rw [terminator_of_unit (s := s.takePunct ';') h]
    exact h
  case h_11 => dsimp only; split <;> exact h
  case h_12 => dsimp only; split <;> exact h
  case h_13 => dsimp only; split <;> exact h
  case h_14 => split <;> exact h
  all_goals exact h

theorem storedUnit_stepNormal {s : Scanner} (h : s.storedUnit = true) {c : Char}
    (huncut : (s.stepNormal c).2 = false) : (s.stepNormal c).1.storedUnit = true := by
  unfold stepNormal at huncut ⊢
  split at huncut
  case isTrue hword =>
    rw [if_pos hword]
    exact h
  case isFalse hword =>
    rw [if_neg hword]
    exact storedUnit_stepSymbol (storedUnit_endWord h) huncut

/-- A stored unit stays one until it is cut. -/
theorem storedUnit_step {s : Scanner} (h : s.storedUnit = true) {c : Char}
    (huncut : (s.step c).2 = false) : (s.step c).1.storedUnit = true := by
  cases step_cases s c with
  | outside content previous hcontent hstep =>
    rw [hstep] at huncut ⊢
    exact storedUnit_stepNormal (s := { s with region := .normal, content, previous }) h huncut
  | lineComment hregion hc hstep =>
    rw [hstep] at huncut ⊢
    exact storedUnit_endLine (s := { s with region := .normal }) h huncut
  | inside region line lineQuoted hregion hdash hslash hquotes hescape hstep =>
    rw [hstep]
    exact h

/-- No `;` cuts a stored unit. -/
theorem step_semicolon_of_unit {s : Scanner} (h : s.storedUnit = true) : (s.step ';').2 = false := by
  cases step_cases s ';' with
  | outside content previous hcontent hstep =>
    have hunit :
        ({ s with region := .normal, content, previous } : Scanner).endWord.storedUnit = true :=
      storedUnit_endWord h
    rw [hstep, stepNormal, if_neg (by simp [isWordByte])]
    generalize ({ s with region := .normal, content, previous } : Scanner).endWord = t at hunit ⊢
    show (t.takePunct ';').terminator.2 = false
    rw [terminator_of_unit (s := t.takePunct ';') hunit]
  | lineComment hregion hc => exact absurd hc (by decide)
  | inside region line lineQuoted hregion hdash hslash hquotes hescape hstep => rw [hstep]

end DdlBridge.Scanner

namespace DdlBridge.Statement

open Scanner Text

variable {rules : LexicalRules} {s : Scanner} {front text : List Char}

theorem storedUnit_feedChar (hsound : s.Sound) (h : s.storedUnit = true) {c : Char}
    (huncut : (feedChar s c).2 = false) : (feedChar s c).1.storedUnit = true := by
  rcases Nat.lt_or_ge c.toNat 128 with hc | hc
  · rw [feedChar_of_lt s hc] at huncut ⊢
    exact storedUnit_step h huncut
  · have hkeeps : (feedChar s c).1.Sound ∧ (feedChar s c).1.storedUnit = true := by
      refine feedChar_keeps (I := fun t => t.Sound ∧ t.storedUnit = true) (fun hlt => by omega)
        (fun ch hch t ht => ⟨ht.1.step ch, storedUnit_step ht.2 ?_⟩) ⟨hsound, h⟩
      rw [← Bool.not_eq_true]
      intro hcut
      rcases step_restarts ht.1 hcut with ⟨rfl, -⟩ | ⟨rfl, -⟩ <;> exact absurd hch (by decide)
    exact hkeeps.2

/-- In a stored unit only lines end statements. -/
theorem cutFree_append_of_unit (hunit : (after rules front).storedUnit = true)
    (hfront : CutFree rules front)
    (hlines : ∀ f r, text = f ++ '\n' :: r → cutsAt rules (front ++ f) '\n' = false) :
    CutFree rules (front ++ text) ∧ (after rules (front ++ text)).storedUnit = true := by
  induction text using List.reverseRecOn with
  | nil => rw [List.append_nil]; exact ⟨hfront, hunit⟩
  | append_singleton text c ih =>
    obtain ⟨htext, hunit'⟩ := ih fun f r heq =>
      hlines f (r ++ [c]) (by rw [heq, List.append_assoc]; rfl)
    have hcut : cutsAt rules (front ++ text) c = false := by
      by_cases hsemicolon : c = ';'
      · subst hsemicolon
        rw [cutsAt, feedChar_of_lt _ (by decide)]
        exact step_semicolon_of_unit hunit'
      · by_cases hnewline : c = '\n'
        · subst hnewline
          exact hlines text [] rfl
        · exact not_cutsAt_of_ne hsemicolon hnewline _
    rw [← List.append_assoc]
    refine ⟨cutFree_concat.2 ⟨htext, hcut⟩, ?_⟩
    rw [after_concat]
    exact storedUnit_feedChar (sound_after rules _) hunit' hcut

/-! ### The head of a unit -/

variable {k : Nat} {l : Lexeme} {ls : List Lexeme}

/-- `k` of the line is filled. -/
structure Filling (rules : LexicalRules) (k : Nat) (s : Scanner) : Prop where
  settled : Settled s
  under : s.rules = rules
  line : LineFree rules ∨ s.lineQuoted = true ∨ k ≤ s.line.length

theorem Filling.mono {n : Nat} (h : Filling rules k s) (hn : n ≤ k) : Filling rules n s :=
  ⟨h.settled, h.under, h.line.imp_right (Or.imp_right (Nat.le_trans hn))⟩

/-- A line end that ends no statement leaves an empty line. -/
theorem Filling.resetLine (h : Filling rules k s) (hline : s.isTerminatorLine = false) {n : Nat}
    (hn : LineFree rules ∨ n = 0) : Through (Filling rules n) s [.blank '\n'] := by
  have hend : s.endLine = (s.resetLine false, false) := by
    rw [endLine, hline]
    rfl
  have hsettled := h.settled.take (.blank '\n')
  rw [take, if_pos rfl, hend] at hsettled
  refine ⟨?_, ?_⟩
  · rw [takeAll, take, if_pos rfl, hend]
    rfl
  · rw [takeAll, take, if_pos rfl, hend]
    refine ⟨hsettled, h.under, hn.imp_right fun hzero => .inr ?_⟩
    rw [hzero]
    exact Nat.zero_le _

theorem Filling.step (h : Filling rules k s) (hl : l.Formed rules) (hcalm : l.Calm rules) :
    Through (Filling rules (k + l.weight)) s [l] := by
  have hsettled := h.settled.take l
  cases l with
  | blank c =>
    by_cases hc : c = '\n'
    · subst hc
      have hfree : LineFree rules := hcalm rfl
      exact h.resetLine (isTerminatorLine_of_lineFree (h.under.symm ▸ hfree)) (.inl hfree)
    · refine ⟨?_, ?_⟩
      · rw [takeAll, take, if_neg hc]
        rfl
      · rw [takeAll, take, if_neg hc]
        exact h
  | word cs =>
    have hcs : cs ≠ [] := by
      rintro rfl
      cases hl
    have hlength := length_le_wordBytes cs
    rw [take_word h.settled hcs] at hsettled
    refine ⟨rfl, ?_⟩
    rw [takeAll, take_word h.settled hcs]
    obtain ⟨_, _, _, _, _, heq⟩ := (wordOnLine s cs).onWord_eq (spoken cs)
    refine ⟨hsettled, (congrArg Scanner.rules heq).trans h.under, ?_⟩
    dsimp only
    rw [heq]
    refine h.line.imp_right (Or.imp_right fun hline => ?_)
    show k + cs.length ≤ ((cs.flatMap wordBytes).reverse ++ s.line).length
    rw [List.length_append, List.length_reverse]
    omega
  | punct c =>
    have huncut : (take s (.punct c)).2 = false := by rw [take_punct h.settled hcalm]
    refine ⟨by rw [takeAll, huncut]; rfl, ?_⟩
    rw [takeAll]
    rw [take_punct h.settled hcalm] at hsettled ⊢
    exact ⟨hsettled, h.under, h.line.imp_right (Or.imp_right Nat.succ_le_succ)⟩
  | quoted opening body => exact ⟨rfl, hsettled, h.under, .inr (.inl rfl)⟩
  | dollar | lineComment | blockComment => exact absurd hcalm id

theorem Filling.run (h : Filling rules k s) (hformed : ∀ l ∈ ls, l.Formed rules)
    (hcalm : ∀ l ∈ ls, l.Calm rules) : Through (Filling rules (k + weightOf ls)) s ls :=
  .of_weights (fun h => h.step) h hformed hcalm

theorem filling_fresh (rules : LexicalRules) : Filling rules 0 (fresh rules) :=
  ⟨⟨rfl, rfl⟩, rfl, .inr (.inr (Nat.zero_le _))⟩

/-- A line that has more on it than a terminator is none. -/
theorem Filling.isTerminatorLine (h : Filling rules k s) (hk : 3 ≤ k) : s.isTerminatorLine = false := by
  refine not_isTerminatorLine_of_filled ?_
  rw [h.under]
  exact h.line.imp_right (Or.imp_right (Nat.le_trans hk))

theorem Filling.endLine_eq (h : Filling rules k s) (hk : 3 ≤ k) :
    s.endLine = (s.resetLine false, false) := by
  rw [endLine, h.isTerminatorLine hk]
  rfl

theorem decides_newline {cs : List Char} (h : Settled (settle (after rules cs))) :
    decides (after rules cs) '\n' := by
  have hregion := h.region
  unfold settle at hregion
  unfold decides
  cases hr : (after rules cs).region with
  | normal => exact .inr (by decide)
  | dash | slash | dollarTag => simp
  | lineComment => rfl
  | quoteEnd quote =>
    have hall : ∀ q ∈ ['\x27', '\x22', '\x60', ']'], '\n' ≠ q ∧ q.toNat < 128 := by decide
    exact hall quote (enclosing_after rules cs quote (.inr (.inl hr)))
  | quote | escape | blockComment | blockCommentStar | dollar =>
    rw [hr] at hregion
    exact absurd (hr.symm.trans hregion) (by simp)

/-- Reading the line end behind lexemes is taking it. -/
theorem feedChar_newline {ls : List Lexeme} (h : Script rules ls) :
    feedChar (after rules (textOf ls)) '\n' = (takeAll (fresh rules) ls).1.endLine := by
  have hs := settled_fresh rules
  have htaken := (feedText_fresh h).1
  rw [← after_eq_feedText] at htaken
  rw [feedChar_settle (sound_after rules _) (decides_newline (htaken ▸ hs.takeAll ls)), htaken,
    (hs.takeAll ls).stepNormal (by decide)]
  rfl

/-- Lexemes on a filled line end no statement, and neither does the line. -/
theorem Filling.cutFree_newline (h : Script rules ls) (hk : 3 ≤ k)
    (hhead : Through (Filling rules k) (fresh rules) ls) : CutFree rules (textOf ls ++ ['\n']) := by
  have hfeed := (feedChar_newline h).trans (hhead.behind.endLine_eq hk)
  have hfree : CutFree rules (textOf ls) := (feedText_fresh h).2.trans hhead.uncut
  refine cutFree_concat.2 ⟨hfree, ?_⟩
  rw [cutsAt, hfeed]

theorem storedUnit_take_of_unit (h : s.storedUnit = true) (huncut : (take s l).2 = false) :
    (take s l).1.storedUnit = true := by
  cases l with
  | blank c =>
    rw [take] at huncut ⊢
    split at huncut
    case isTrue hc =>
      rw [if_pos hc]
      exact storedUnit_endLine h huncut
    case isFalse hc =>
      rw [if_neg hc]
      exact h
  | word cs => exact storedUnit_endWord (s := pushWord s (cs.flatMap wordBytes)) h
  | punct c =>
    rw [take]
    split
    · rw [terminator_of_unit (s := s.takePunct ';') h]
      exact h
    · exact h
  | quoted | dollar | lineComment => exact h
  | blockComment body =>
    rw [take]
    split <;> exact h

theorem storedUnit_takeAll_of_unit (h : s.storedUnit = true) (huncut : (takeAll s ls).2 = false) :
    (takeAll s ls).1.storedUnit = true := by
  induction ls generalizing s with
  | nil => exact h
  | cons l ls ih =>
    obtain ⟨hfirst, hrest⟩ := Bool.or_eq_false_iff.1 huncut
    exact ih (storedUnit_take_of_unit h hfirst) hrest

/-- The statement is a stored unit, and `k` of its line is filled. -/
structure InUnit (rules : LexicalRules) (k : Nat) (s : Scanner) : Prop extends Filling rules k s where
  unit : s.storedUnit = true

theorem InUnit.mono {n : Nat} (h : InUnit rules k s) (hn : n ≤ k) : InUnit rules n s :=
  ⟨h.toFilling.mono hn, h.unit⟩

theorem InUnit.through {n : Nat} (h : InUnit rules k s) (hfilling : Through (Filling rules n) s ls) :
    Through (InUnit rules n) s ls :=
  ⟨hfilling.uncut, hfilling.behind, storedUnit_takeAll_of_unit h.unit hfilling.uncut⟩

theorem InUnit.run (h : InUnit rules k s) (hformed : ∀ l ∈ ls, l.Formed rules)
    (hcalm : ∀ l ∈ ls, l.Calm rules) : Through (InUnit rules (k + weightOf ls)) s ls :=
  h.through (h.toFilling.run hformed hcalm)

/-- A unit goes on behind a line that has more on it than a terminator. -/
theorem InUnit.newline (h : InUnit rules k s) (hk : 3 ≤ k) :
    Through (InUnit rules 0) s [.blank '\n'] :=
  h.through (h.toFilling.resetLine (h.isTerminatorLine hk) (.inr rfl))

/-- Behind the lines of its head a unit is read from the start of a line. -/
theorem InUnit.behind_newline (h : Script rules ls) (hk : 3 ≤ k)
    (hhead : Through (InUnit rules k) (fresh rules) ls) :
    CutFree rules (textOf ls ++ ['\n']) ∧ (after rules (textOf ls ++ ['\n'])).region = .normal ∧
      (after rules (textOf ls ++ ['\n'])).line = [] ∧
      (after rules (textOf ls ++ ['\n'])).storedUnit = true := by
  have hfeed := (feedChar_newline h).trans (hhead.behind.endLine_eq hk)
  refine ⟨Filling.cutFree_newline h hk ⟨hhead.uncut, hhead.behind.toFilling⟩, ?_⟩
  rw [after_concat, hfeed]
  exact ⟨hhead.behind.settled.region, rfl, hhead.behind.unit⟩

/-! ### The same text behind other fronts -/

/-- The bytes of a text as characters. -/
def bytesOf (cs : List Char) : List Char := (encode cs).map fun b => Char.ofNat b.toNat

theorem bytesOf_cons {c : Char} (hc : c.toNat < 128) (cs : List Char) :
    bytesOf (c :: cs) = c :: bytesOf cs := by
  rw [bytesOf, encode_cons, utf8EncodeChar_of_lt hc]
  show Char.ofNat _ :: _ = _
  rw [ofNat_toNat_byte hc]
  rfl

theorem after_append_eq_stepAll (rules : LexicalRules) (front f : List Char) :
    after rules (front ++ f) = stepAll (after rules front) (bytesOf f) := by
  rw [after_eq_feedText, after_eq_feedText, feedText_append]
  exact foldl_feedByte_eq_stepAll _ _ _

/-- What a text is marked as does not depend on the front, and only the line does. -/
theorem exists_markAll_bytesOf (hplain : Plain rules) (hfront : (after rules front).region = .normal)
    (f : List Char) : ∃ ms m, markAll rules .nothing (bytesOf f ++ ['\n']) = ms ++ [('\n', m)] ∧
      ((after rules (front ++ f)).unfinished? = none ↔ m = .code) ∧
      (cutsAt rules (front ++ f) '\n' = true ↔ m = .code ∧ (ms.foldl LineText.step
        ⟨(after rules front).line, (after rules front).lineQuoted⟩).Ends rules) := by
  have hrules := rules_after rules front
  have hstands : Stands (after rules front) (bytesOf f ++ ['\n'])
      ⟨(after rules front).line, (after rules front).lineQuoted⟩ .nothing := .of_normal hfront rfl rfl
  have hread := exists_marks_concat (hrules.symm ▸ hplain) hstands
  rwa [← after_append_eq_stepAll, hrules, ← feedChar_of_lt _ (by decide)] at hread

/-- Either the line before is over, or all the code is put on it. -/
theorem foldl_step_cases (ms : List (Char × Mark)) :
    (∀ l l' : LineText, ms.foldl LineText.step l = ms.foldl LineText.step l') ∨
      ∀ l : LineText, ∃ code, (ms.foldl LineText.step l).code = code ++ l.code := by
  induction ms using List.reverseRecOn with
  | nil => exact .inr fun l => ⟨[], rfl⟩
  | append_singleton ms m ih =>
    simp only [List.foldl_append, List.foldl_cons, List.foldl_nil]
    rcases ih with hover | hcode
    · exact .inl fun l l' => congrArg (LineText.step · m) (hover l l')
    · by_cases hm : m.1 = '\n'
      · refine .inl fun l l' => ?_
        rw [LineText.step, LineText.step, if_pos hm, if_pos hm]
      · refine .inr fun l => ?_
        obtain ⟨code, hl⟩ := hcode l
        rw [LineText.step, if_neg hm]
        rcases m with ⟨c, _ | _ | _⟩
        · by_cases hc : c ∈ plainBlanks
          · exact ⟨code, by simp only [if_pos hc, hl]⟩
          · exact ⟨c :: code, by simp only [if_neg hc, hl, List.cons_append]⟩
        · exact ⟨code, hl⟩
        · exact ⟨code, hl⟩

theorem not_ends_of_blocked {l : LineText} {base code : List Char} (h : Blocked base false)
    (hcode : l.code = code ++ base) : ¬ l.Ends rules := by
  rintro ⟨-, ⟨-, hslash⟩ | ⟨-, hgo⟩⟩
  · exact (h.resolve_left (by simp) code).1 (hcode ▸ hslash)
  · exact (h.resolve_left (by simp) code).2 (hcode ▸ hgo)

variable {front' f : List Char} {c : Char}

theorem markAll_of_opensWord (hc : opensWord c = true) (cs : List Char) :
    markAll rules .nothing (c :: cs) = (c, .code) :: markAll rules .nothing cs := by
  have hquote : opensQuote rules c = false := by
    by_contra hopen
    have hextends := extendsWord_of_opensQuote (Bool.not_eq_false _ ▸ hopen)
    simp [extendsWord, hc] at hextends
  have hsign : c ≠ '-' ∧ c ≠ '/' := by
    constructor <;> rintro rfl <;> exact absurd hc (by decide)
  rw [markAll_outside (fun _ h => absurd h hsign.1) (fun _ h => absurd h hsign.2),
    if_neg (by rw [hquote]; simp)]

/-- What must be known of two fronts and of the first character of a text, for the text to be read
behind the one front as it is behind the other. -/
structure Swaps (rules : LexicalRules) (front front' : List Char) (c : Char) : Prop where
  plain : Plain rules
  region : (after rules front).region = .normal
  region' : (after rules front').region = .normal
  line' : (after rules front').line = []
  ascii : c.toNat < 128
  word : opensWord c = true
  letter : c.toUpper ≠ 'G'

/-- A text that starts with a word is cut at no more lines at the start of a line than behind another
front. -/
theorem Swaps.cutsAt_newline (h : Swaps rules front front' c)
    (hcut : cutsAt rules (front' ++ c :: f) '\n' = true) :
    cutsAt rules (front ++ c :: f) '\n' = true := by
  obtain ⟨ms, m, hmarks, -, hiff⟩ := exists_markAll_bytesOf h.plain h.region (c :: f)
  obtain ⟨ms', m', hmarks', -, hiff'⟩ := exists_markAll_bytesOf h.plain h.region' (c :: f)
  obtain ⟨rfl, hm⟩ := List.append_inj' (hmarks.symm.trans hmarks') rfl
  obtain rfl : m = m' := congrArg Prod.snd (List.singleton_inj.1 hm)
  obtain ⟨hcode, hends⟩ := hiff'.1 hcut
  refine hiff.2 ⟨hcode, ?_⟩
  rw [bytesOf_cons h.ascii, List.cons_append, markAll_of_opensWord h.word] at hmarks
  cases ms with
  | nil =>
    have hc : c = '\n' := congrArg Prod.fst (List.cons.inj hmarks).1
    exact absurd h.word (by rw [hc]; decide)
  | cons first ms =>
    obtain ⟨rfl, -⟩ := List.cons.inj hmarks
    have hblank : c ∉ plainBlanks := fun hmem => by
      have hnone : ∀ d ∈ plainBlanks, opensWord d = false := by decide
      exact absurd h.word (by rw [hnone c hmem]; simp)
    have hfirst : (LineText.step ⟨(after rules front').line, (after rules front').lineQuoted⟩
        (c, .code)).code = [c] := by
      rw [stepCode_of_not_mem hblank]
      exact congrArg (c :: ·) h.line'
    rw [List.foldl_cons] at hends ⊢
    generalize LineText.step ⟨(after rules front').line, (after rules front').lineQuoted⟩
      (c, .code) = start at hends hfirst
    rcases foldl_step_cases ms with hover | hput
    · rwa [hover _ start]
    · -- the line is still the one that starts with `c`, which is no terminator
      obtain ⟨code, hline⟩ := hput start
      have hslash : c ≠ '/' := by
        rintro rfl
        exact absurd h.word (by decide)
      rw [hfirst] at hline
      exact absurd hends (not_ends_of_blocked (blocked_singleton hslash h.letter false) hline)

/-- Its end lies inside a region behind both or behind none. -/
theorem Swaps.unfinished?_iff (h : Swaps rules front front' c) (f : List Char) :
    (after rules (front' ++ f)).unfinished? = none ↔ (after rules (front ++ f)).unfinished? = none := by
  obtain ⟨ms, m, hmarks, hdone, -⟩ := exists_markAll_bytesOf h.plain h.region f
  obtain ⟨ms', m', hmarks', hdone', -⟩ := exists_markAll_bytesOf h.plain h.region' f
  obtain ⟨rfl, hm⟩ := List.append_inj' (hmarks.symm.trans hmarks') rfl
  obtain rfl : m = m' := congrArg Prod.snd (List.singleton_inj.1 hm)
  exact hdone'.trans hdone.symm

/-- A text that is uncut behind one front is uncut in a stored unit that starts a line with it. -/
theorem Swaps.cutFree (h : Swaps rules front front' c) (hunit : (after rules front').storedUnit = true)
    (hfront' : CutFree rules front') (htext : CutFree rules (front ++ c :: f)) :
    CutFree rules (front' ++ c :: f) ∧ (after rules (front' ++ c :: f)).storedUnit = true := by
  refine cutFree_append_of_unit hunit hfront' fun g r hparts => ?_
  cases g with
  | nil =>
    have hc : c = '\n' := (List.cons.inj hparts).1
    exact absurd h.word (by rw [hc]; decide)
  | cons d g =>
    obtain ⟨rfl, rfl⟩ := List.cons.inj hparts
    rw [← Bool.not_eq_true]
    intro hcut
    have hcut' := h.cutsAt_newline hcut
    have hline : CutFree rules (front ++ c :: g ++ ['\n']) := by
      have hwhole : CutFree rules (front ++ c :: g ++ ['\n'] ++ r) := by simpa using htext
      exact hwhole.left
    rw [(cutFree_concat.1 hline).2] at hcut'
    exact absurd hcut' (by simp)

theorem cutFree_iff {cs : List Char} : CutFree rules cs ↔ (scan rules (encode cs)).boundaries = [] := by
  obtain ⟨hnone, hsome⟩ := boundaries_scan rules (encode cs)
  refine ⟨hnone, fun h => ?_⟩
  rw [CutFree, ← Bool.not_eq_true]
  intro hcut
  obtain ⟨b, hb, -⟩ := hsome hcut
  rw [h] at hb
  exact absurd hb List.not_mem_nil

theorem finish_scan_iff {cs : List Char} : (∃ s, (scan rules (encode cs)).scanner.finish = .ok s) ↔
    (after rules cs).unfinished? = none := by
  rw [finish_eq_ok_iff, (scanner_scan rules (encode cs)).1, after_eq_feedText]
  rfl

/-! ### The end of a unit -/

/-- A line that is a terminator is taken off, and then the `;` in front of it. -/
theorem ofPiece?_lone {line : List Char} (hlone : LoneTerminator rules line) (hline : '\n' ∉ line)
    (hfilled : ∃ b ∈ line, isBlank b = false) {c : Char} {cs : List Char} (hc : isBlank c = false) :
    ofPiece? rules 0 (c :: cs ++ [';', '\n'] ++ line) = some ⟨0, trimEnd (c :: cs)⟩ := by
  have hstart := trimStart_trimEnd hc cs
  obtain ⟨more, hmore⟩ := exists_trimEnd hc cs
  have hfront : trimEnd (c :: cs ++ [';']) = c :: cs ++ [';'] := trimEnd_concat (by decide)
  have hstrip := stripTerminator_line rules (x := c :: cs ++ [';'] ++ ['\n']) (v := line)
    (.inr (by rw [List.getLast?_concat])) hline hfilled
  rw [if_pos hlone, List.dropLast_concat, hfront] at hstrip
  dsimp only at hstrip
  rw [List.getLast?_concat, if_pos rfl, List.dropLast_concat] at hstrip
  have hparts : c :: cs ++ [';', '\n'] ++ line = c :: cs ++ [';'] ++ ['\n'] ++ line := by simp
  rw [hparts, ← ofPiece?_append_blanks rules 0 _ (w := ['\n']) (by decide)]
  unfold ofPiece?
  dsimp only
  rw [hstrip, hstart, hmore, Nat.sub_self]
  rfl

/-- A stored unit is one statement if a `;` and a `/` line follow it. The line of the `;` may end the
statement by itself, if the unit ends in a comment; then the `/` is a line of its own. -/
theorem split_of_unit (hslash : rules.slashLines = true) {c : Char} {cs : List Char}
    (hblank : isBlank c = false) (hcontent : (after rules [c]).content = true)
    (hcutFree : CutFree rules (c :: cs)) (hunit : (after rules (c :: cs)).storedUnit = true)
    (hdone : (after rules (c :: cs)).unfinished? = none) :
    split rules (c :: cs ++ [';', '\n', '/']) = .ok [⟨0, trimEnd (c :: cs)⟩] := by
  have hplain : ∀ d ∈ [';', '\n', '/'], Scanner.Plain rules d := by
    intro d hd
    simp only [List.mem_cons, List.not_mem_nil, or_false] at hd
    rcases hd with rfl | rfl | rfl <;> exact ⟨by decide, fun _ => by decide⟩
  have hfirst : CutFree rules (c :: cs ++ [';']) := by
    refine cutFree_concat.2 ⟨hcutFree, ?_⟩
    rw [cutsAt, feedChar_of_lt _ (by decide)]
    exact step_semicolon_of_unit hunit
  have houtside : (after rules (c :: cs ++ [';'])).Outside :=
    outside_of_unfinished hdone (by decide) (hplain ';' (by decide)) (by decide)
  have hcontent' : (after rules (c :: cs ++ [';'])).content = true :=
    content_of_cutFree_cons hcontent hfirst
  have hfinished : (after rules (c :: cs ++ [';'] ++ ['\n'] ++ ['/'])).unfinished? = none := by
    rw [List.append_assoc]
    exact (outside_after houtside fun d hd => hplain d (List.mem_cons_of_mem _ hd)).unfinished?
  have hparts : c :: cs ++ [';', '\n', '/'] = c :: cs ++ [';'] ++ ['\n'] ++ ['/'] := by simp
  have hlone : LoneTerminator rules ['/'] := .inl ⟨hslash, by decide⟩
  have hstatement : ofPiece? rules 0 (c :: cs ++ [';', '\n'] ++ ['/']) =
      some ⟨0, trimEnd (c :: cs)⟩ :=
    ofPiece?_lone hlone (by decide) ⟨'/', by decide, by decide⟩ hblank
  rw [show c :: cs ++ [';', '\n'] = c :: cs ++ [';'] ++ ['\n'] by simp] at hstatement
  have hlast : cutsAt rules (c :: cs ++ [';'] ++ ['\n']) '/' = false :=
    not_cutsAt_of_ne (by decide) (by decide) _
  rw [hparts]
  cases hcut : cutsAt rules (c :: cs ++ [';']) '\n' with
  | false =>
    have hall : CutFree rules (c :: cs ++ [';'] ++ ['\n'] ++ ['/']) :=
      cutFree_concat.2 ⟨cutFree_concat.2 ⟨hfirst, hcut⟩, hlast⟩
    have hstill : (after rules (c :: cs ++ [';'] ++ ['\n'] ++ ['/'])).content = true := by
      rw [List.append_assoc] at hall ⊢
      exact content_of_cutFree_append hcontent' hall
    exact split_of_cutFree hall hstill hfinished hstatement
  | true =>
    have hrestart := feedChar_restarts (sound_after rules _) hcut
    obtain ⟨hc, -⟩ | ⟨-, -, last, hfresh⟩ := hrestart
    · exact absurd hc (by decide)
    have hnothing : (after rules (c :: cs ++ [';'] ++ ['\n'] ++ ['/'])).content = false := by
      rw [after_concat, after_concat, hfresh]
      rfl
    have hfirst' : ofPiece? rules 0 (c :: cs ++ [';'] ++ ['\n']) = some ⟨0, trimEnd (c :: cs)⟩ := by
      rw [ofPiece?_append_blanks rules 0 _ (by decide), ofPiece?_semicolon rules 0 hblank]
    rw [split_of_finished hfinished, hnothing, statement?_splitter, splitter_of_not_cut hlast,
      found_of_cut hfirst hcontent' hcut hfirst']
    rfl

end DdlBridge.Statement
