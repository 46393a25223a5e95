import DdlBridge.Proofs.Statement.Content
import DdlBridge.Proofs.Statement.Piece

/-!
# What is left of a terminator line

A scanner finds a terminator line by the line it keeps, which leaves out white space and comments.
The splitter takes the line off by its text. The two agree where the line is bare: the statement
that the line ends is free of the terminator exactly then (`free_of_terminator_iff`).
-/

namespace DdlBridge.Scanner

/-! ### The line of a scanner as a stack -/

theorem line_endLine (s : Scanner) : s.endLine.1.line = [] := by
  unfold endLine
  split <;> rfl

theorem line_terminator (s : Scanner) : s.terminator.1.line = s.line := by
  unfold terminator
  split <;> rfl

theorem line_stepSymbol (s : Scanner) (c : Char) :
    (s.stepSymbol c).1.line = s.line ∨ (s.stepSymbol c).1.line = c :: s.line ∨
      (c = '\n' ∧ (s.stepSymbol c).1.line = []) := by
  unfold stepSymbol
  split
  case h_1 => exact .inr (.inr ⟨rfl, s.line_endLine⟩)
  case h_6 => exact .inr (.inl (line_terminator _))
  case h_11 => dsimp only; split <;> [exact .inl rfl; exact .inr (.inl rfl)]
  case h_12 => dsimp only; split <;> [exact .inl rfl; exact .inr (.inl rfl)]
  case h_13 => dsimp only; split <;> [exact .inl rfl; exact .inr (.inl rfl)]
  case h_14 => split <;> exact .inr (.inl rfl)
  all_goals first | exact .inl rfl | exact .inr (.inl rfl)

/-- What a byte does to the line: only the second character of a comment opener takes something off
it, and only a line end empties it. -/
inductive LineCase (s : Scanner) (c : Char) : Prop where
  | kept (hline : (s.step c).1.line = s.line)
  | pushed (hline : (s.step c).1.line = c :: s.line)
  | popped (hc : c.toNat < 128) (hline : (s.step c).1.line = s.line.tail)
  | emptied (hc : c = '\n') (hline : (s.step c).1.line = [])

theorem LineCase.of_normal {s t : Scanner} {c : Char} (hline : t.line = s.line)
    (hstep : s.step c = t.stepNormal c) : LineCase s c := by
  rw [stepNormal] at hstep
  split at hstep
  · exact .pushed (by rw [hstep, ← hline]; rfl)
  · rcases line_stepSymbol t.endWord c with h | h | ⟨hc, h⟩
    · exact .kept (by rw [hstep, h, line_endWord, hline])
    · exact .pushed (by rw [hstep, h, line_endWord, hline])
    · exact .emptied hc (by rw [hstep, h])

/-- Inside a region a line end empties the line and nothing else touches it. -/
theorem LineCase.of_inside {s t u : Scanner} {c : Char} (hempty : t.line = []) (hkept : u.line = s.line)
    (hstep : s.step c = if c = '\n' then (t, false) else (u, false)) : LineCase s c := by
  split at hstep
  case isTrue hc => exact .emptied hc (by rw [hstep, hempty])
  case isFalse => exact .kept (by rw [hstep, hkept])

theorem lineCase (s : Scanner) (c : Char) : LineCase s c := by
  cases hr : s.region with
  | normal => exact .of_normal (t := s) rfl (by simp only [step, hr])
  | dash =>
    by_cases hdash : c = '-'
    · refine .popped (by rw [hdash]; decide) ?_
      simp only [step, hr, if_pos hdash, popLine]
    · refine .of_normal (t := { s with content := true, previous := .punct '-', region := .normal })
        rfl ?_
      simp only [step, hr, if_neg hdash]
  | slash =>
    by_cases hstar : c = '*'
    · refine .popped (by rw [hstar]; decide) ?_
      simp only [step, hr, if_pos hstar, popLine]
    · refine .of_normal (t := { s with content := true, previous := .punct '/', region := .normal })
        rfl ?_
      simp only [step, hr, if_neg hstar]
  | lineComment =>
    by_cases hc : c = '\n'
    · refine .emptied hc ?_
      simp only [step, hr, if_pos hc, line_endLine]
    · exact .kept (by simp only [step, hr, if_neg hc])
  | blockComment =>
    by_cases hstar : c = '*'
    · exact .kept (by simp only [step, hr, if_pos hstar])
    · refine .of_inside (t := s.resetLine false) (u := s) rfl rfl ?_
      simp only [step, hr, if_neg hstar]
  | blockCommentStar =>
    by_cases hslash : c = '/'
    · exact .kept (by simp only [step, hr, if_pos hslash])
    by_cases hstar : c = '*'
    · exact .kept (by simp only [step, hr, if_neg hslash, if_pos hstar])
    · refine .of_inside (t := { s.resetLine false with region := .blockComment })
        (u := { s with region := .blockComment }) rfl rfl ?_
      simp only [step, hr, if_neg hslash, if_neg hstar]
  | quote closing =>
    by_cases hclose : c = closing
    · exact .kept (by simp only [step, hr, if_pos hclose])
    by_cases hescape : c = '\\' ∧ s.rules.backslashEscapes = true ∧
        (closing = '\x27' ∨ closing = '\x22')
    · exact .kept (by simp only [step, hr, if_neg hclose, if_pos hescape])
    · refine .of_inside (t := s.resetLine true) (u := s) rfl rfl ?_
      simp only [step, hr, if_neg hclose, if_neg hescape]
  | quoteEnd closing =>
    by_cases hclose : c = closing
    · exact .kept (by simp only [step, hr, if_pos hclose])
    · refine .of_normal (t := { s with region := .normal }) rfl ?_
      simp only [step, hr, if_neg hclose]
  | escape closing => exact .kept (by simp only [step, hr])
  | dollarTag tag =>
    by_cases hclose : c = '$'
    · exact .kept (by simp only [step, hr, if_pos hclose])
    by_cases htag : c.isAlpha ∨ c = '_' ∨ (c.isDigit ∧ tag ≠ [])
    · exact .pushed (by simp only [step, hr, if_neg hclose, if_pos htag, pushLine])
    · refine .of_normal (t := { s with region := .normal }) rfl ?_
      simp only [step, hr, if_neg hclose, if_neg htag]
  | dollar tag found =>
    by_cases hclose : found = some tag.length ∧ c = '$'
    · exact .kept (by simp only [step, hr, stepDollar, if_pos hclose])
    · refine .of_inside (t := { s with region := .dollar tag (dollarFound tag found c) }.resetLine true)
        (u := { s with region := .dollar tag (dollarFound tag found c) }) rfl rfl ?_
      simp only [step, hr, stepDollar, if_neg hclose]
      split <;> rfl

/-- A line end that is not escaped empties the line. -/
theorem line_step_newline {s : Scanner} (hsound : s.Sound)
    (hrules : s.rules.backslashEscapes = false) : (s.step '\n').1.line = [] := by
  have hnormal : ∀ t : Scanner, (t.stepNormal '\n').1.line = [] := fun t => by
    rw [stepNormal_newline, line_endLine]
  cases hr : s.region with
  | normal => simp only [step, hr, hnormal]
  | dash => simp only [step, hr, if_neg (show ¬ '\n' = '-' by decide), hnormal]
  | slash => simp only [step, hr, if_neg (show ¬ '\n' = '*' by decide), hnormal]
  | lineComment => simp only [step, hr, if_true, line_endLine]
  | blockComment => simp only [step, hr, if_neg (show ¬ '\n' = '*' by decide), if_true, resetLine]
  | blockCommentStar =>
    simp only [step, hr, if_neg (show ¬ '\n' = '/' by decide),
      if_neg (show ¬ '\n' = '*' by decide), if_true, resetLine]
  | quote closing =>
    have hclosing : ¬ '\n' = closing := fun heq => hsound.closing closing (.inl hr) heq.symm
    have hescape : ¬ ('\n' = '\\' ∧ s.rules.backslashEscapes = true ∧
        (closing = '\x27' ∨ closing = '\x22')) := fun h => absurd h.1 (by decide)
    simp only [step, hr, if_neg hclosing, if_neg hescape, if_true, resetLine]
  | quoteEnd closing =>
    have hclosing : ¬ '\n' = closing := fun heq => hsound.closing closing (.inr (.inl hr)) heq.symm
    simp only [step, hr, if_neg hclosing, hnormal]
  | escape closing => exact absurd ((hsound.escape closing hr).symm.trans hrules) (by simp)
  | dollarTag tag =>
    have htag : ¬ ('\n'.isAlpha ∨ '\n' = '_' ∨ ('\n'.isDigit ∧ tag ≠ [])) := by
      rintro (h | h | ⟨h, -⟩) <;> exact absurd h (by decide)
    simp only [step, hr, if_neg (show ¬ '\n' = '$' by decide), if_neg htag, hnormal]
  | dollar tag found =>
    have hfound : ¬ (found = some tag.length ∧ '\n' = '$') := fun h => absurd h.2 (by decide)
    simp only [step, hr, stepDollar, if_neg hfound, if_true, resetLine]

/-- A line end cuts where the scanner's line is a terminator. -/
theorem isTerminatorLine_of_cut {s : Scanner} (hcut : (s.step '\n').2 = true) :
    s.isTerminatorLine = true := by
  have hend : ∀ t : Scanner, t.rules = s.rules → t.line = s.line → t.lineQuoted = s.lineQuoted →
      t.endLine.2 = true → s.isTerminatorLine = true := by
    intro t hrules hline hquoted hflag
    have hsame : t.isTerminatorLine = s.isTerminatorLine := by
      rw [isTerminatorLine, isTerminatorLine, hrules, hline, hquoted]
    rw [endLine, hsame] at hflag
    split at hflag
    case isTrue h => exact h
    case isFalse => exact absurd hflag (by simp)
  cases step_cases s '\n' with
  | outside content previous hcontent hstep =>
    rw [hstep, stepNormal_newline] at hcut
    refine hend _ ?_ ?_ ?_ hcut
    · rw [rules_endWord]
    · rw [line_endWord]
    · rw [lineQuoted_endWord]
  | lineComment hregion hc hstep =>
    rw [hstep] at hcut
    refine hend _ ?_ ?_ ?_ hcut <;> rfl
  | inside region line lineQuoted hregion hdash hslash hquotes hescape hstep =>
    rw [hstep] at hcut
    exact absurd hcut (by simp)

end DdlBridge.Scanner

namespace DdlBridge.Statement

open Scanner Text

variable {rules : LexicalRules}

/-! ### The terminator on the line -/

/-- Bytes above ASCII are put on the line or leave it alone. -/
theorem line_foldl_feedByte {bytes : List UInt8} (hbytes : ∀ b ∈ bytes, 128 ≤ b.toNat) (s : Scanner)
    (cut : Bool) : ∃ front, (∀ c ∈ front, 128 ≤ c.toNat) ∧
      (bytes.foldl feedByte (s, cut)).1.line = front ++ s.line := by
  induction bytes generalizing s cut with
  | nil => exact ⟨[], by simp, rfl⟩
  | cons b bytes ih =>
    have hb := le_toNat_ofNat_byte (hbytes b List.mem_cons_self)
    obtain ⟨front, hfront, hline⟩ := ih (fun b' hmem => hbytes b' (List.mem_cons_of_mem _ hmem))
      (s.feed b).1 (cut || (s.feed b).2)
    have hfold : (b :: bytes).foldl feedByte (s, cut) =
        bytes.foldl feedByte ((s.feed b).1, cut || (s.feed b).2) := rfl
    rw [hfold, hline]
    cases lineCase s (Char.ofNat b.toNat) with
    | kept h => exact ⟨front, hfront, by rw [Scanner.feed, h]⟩
    | pushed h =>
      refine ⟨front ++ [Char.ofNat b.toNat], fun c hc => ?_, by rw [Scanner.feed, h]; simp⟩
      rcases List.mem_append.1 hc with hc | hc
      · exact hfront c hc
      · rwa [List.mem_singleton.1 hc]
    | popped hc => omega
    | emptied hc =>
      rw [hc] at hb
      exact absurd hb (by decide)

/-- What lies at the bottom of the line stays there as long as the line is not empty. -/
theorem bottom_feedChar {s : Scanner} {b c : Char} (hbottom : s.line.getLast? = some b)
    (hline : (feedChar s c).1.line ≠ []) : (feedChar s c).1.line.getLast? = some b := by
  have hne : s.line ≠ [] := by
    intro heq
    rw [heq] at hbottom
    exact absurd hbottom (by simp)
  rcases Nat.lt_or_ge c.toNat 128 with h | h
  · rw [feedChar_of_lt s h] at hline ⊢
    cases lineCase s c with
    | kept hkept => rwa [hkept]
    | pushed hpushed => rw [hpushed, List.getLast?_cons_of_ne_nil hne, hbottom]
    | popped hc hpopped =>
      rw [hpopped] at hline ⊢
      rw [List.getLast?_tail, if_neg, hbottom]
      intro hlength
      refine hline (List.eq_nil_of_length_eq_zero ?_)
      rw [List.length_tail, hlength]
    | emptied hc hemptied => exact absurd hemptied hline
  · obtain ⟨front, -, hfront⟩ :=
      line_foldl_feedByte (fun b hb => le_of_mem_utf8EncodeChar h hb) s false
    rw [feedChar, hfront, List.getLast?_append, hbottom]
    rfl

/-- A character that starts a line puts itself at the bottom. -/
theorem bottom_of_empty {s : Scanner} {c : Char} (hempty : s.line = [])
    (hline : (feedChar s c).1.line ≠ []) : ∃ b, (feedChar s c).1.line.getLast? = some b ∧
      (b.toNat < 128 → b = c ∧ (feedChar s c).1.line = [c]) := by
  rcases Nat.lt_or_ge c.toNat 128 with h | h
  · rw [feedChar_of_lt s h] at hline ⊢
    cases lineCase s c with
    | kept hkept => exact absurd (hkept.trans hempty) hline
    | pushed hpushed =>
      rw [hempty] at hpushed
      exact ⟨c, by rw [hpushed]; rfl, fun _ => ⟨rfl, hpushed⟩⟩
    | popped hc hpopped => exact absurd (hpopped.trans (by rw [hempty]; rfl)) hline
    | emptied hc hemptied => exact absurd hemptied hline
  · obtain ⟨front, hwide, hfront⟩ :=
      line_foldl_feedByte (fun b hb => le_of_mem_utf8EncodeChar h hb) s false
    rw [hempty, List.append_nil] at hfront
    rw [feedChar, hfront] at hline ⊢
    refine ⟨front.getLast hline, List.getLast?_eq_some_getLast hline, fun hlt => ?_⟩
    have hge := hwide _ (List.getLast_mem hline)
    omega

/-- `c`, read behind `f`, is on the line of the scanner and stays there while `r` is read. -/
def StaysOnLine (rules : LexicalRules) (f : List Char) (c : Char) (r : List Char) : Prop :=
  ∀ mid, mid <+: r → c :: (after rules f).line <:+ (after rules (f ++ c :: mid)).line

theorem exists_bottom {front : List Char} (hline : (after rules front).line ≠ []) :
    ∃ f c r, front = f ++ c :: r ∧ (after rules f).line = [] ∧
      ∀ mid, mid <+: r → (after rules (f ++ c :: mid)).line ≠ [] := by
  induction front using List.reverseRecOn with
  | nil => exact absurd rfl hline
  | append_singleton front d ih =>
    by_cases hempty : (after rules front).line = []
    · refine ⟨front, d, [], rfl, hempty, fun mid hmid => ?_⟩
      rw [List.prefix_nil.1 hmid]
      exact hline
    · obtain ⟨f, c, r, rfl, hf, hstay⟩ := ih hempty
      refine ⟨f, c, r ++ [d], by simp, hf, fun mid hmid => ?_⟩
      rcases List.prefix_concat_iff.1 hmid with rfl | hmid
      · rwa [← List.cons_append, ← List.append_assoc]
      · exact hstay mid hmid

/-- The first character of a terminator line's terminator. -/
theorem exists_staysOnLine {front : List Char} (hcut : cutsAt rules front '\n' = true) :
    ∃ f c r, front = f ++ c :: r ∧ StaysOnLine rules f c r ∧ (c = '/' ∨ c = 'g' ∨ c = 'G') := by
  rw [cutsAt, feedChar_of_lt _ (by decide)] at hcut
  have hterminator := isTerminatorLine_of_cut hcut
  -- the bottom of a terminator line is its first character
  have hbottom : ∀ b, (after rules front).line.getLast? = some b → b = '/' ∨ b = 'g' ∨ b = 'G' := by
    intro b hb
    simp only [isTerminatorLine, Bool.and_eq_true, Bool.or_eq_true, beq_iff_eq] at hterminator
    rcases hterminator.2 with ⟨-, hslash⟩ | ⟨-, hgo⟩
    · rw [hslash] at hb
      exact .inl (Option.some.inj hb).symm
    · have hhead : (upper (after rules front).line.reverse).head? = some b.toUpper := by
        rw [upper, List.head?_map, List.head?_reverse, hb]
        rfl
      rw [hgo] at hhead
      exact .inr (toUpper_eq_G_iff.1 (Option.some.inj hhead).symm)
  have hne : (after rules front).line ≠ [] := by
    intro heq
    rw [isTerminatorLine_of_nil heq] at hterminator
    exact absurd hterminator (by simp)
  obtain ⟨f, c, r, rfl, hf, hstay⟩ := exists_bottom hne
  have hfirst := hstay [] List.nil_prefix
  rw [after_concat] at hfirst
  obtain ⟨b, hb, hchar⟩ := bottom_of_empty hf hfirst
  rw [← after_concat] at hb hchar
  have hkept : ∀ mid, mid <+: r → (after rules (f ++ c :: mid)).line.getLast? = some b := by
    intro mid
    induction mid using List.reverseRecOn with
    | nil => exact fun _ => hb
    | append_singleton mid d ih =>
      intro hmid
      have hstep := hstay _ hmid
      rw [← List.cons_append, ← List.append_assoc, after_concat] at hstep ⊢
      exact bottom_feedChar (ih ((List.prefix_append _ _).trans hmid)) hstep
  have hb' := hbottom b (hkept r List.prefix_rfl)
  have hnarrow : b.toNat < 128 := by rcases hb' with rfl | rfl | rfl <;> decide
  obtain ⟨rfl, -⟩ := hchar hnarrow
  refine ⟨f, b, r, rfl, fun mid hmid => ?_, hb'⟩
  rw [hf]
  exact List.singleton_suffix_iff_getLast?_eq_some.2 (hkept mid hmid)

theorem backslashEscapes_of_cut {d : Dialect} {front : List Char}
    (hcut : cutsAt d.rules front '\n' = true) : d.rules.backslashEscapes = false := by
  refine (lineFree_or d).resolve_left fun hfree => ?_
  rcases feedChar_restarts (sound_after d.rules front) hcut with ⟨h, -⟩ | ⟨-, h, -⟩
  · exact absurd h (by decide)
  · exact h (by rwa [rules_after])

/-- What is on the line stands behind the last line end. -/
theorem StaysOnLine.not_mem (hrules : rules.backslashEscapes = false) {f r : List Char} {c : Char}
    (h : StaysOnLine rules f c r) : '\n' ∉ c :: r := by
  intro hmem
  obtain ⟨mid, rest, hparts⟩ := List.append_of_mem hmem
  have hempty : (after rules (f ++ mid ++ ['\n'])).line = [] := by
    rw [after_concat, feedChar_of_lt _ (by decide)]
    exact line_step_newline (sound_after rules _) (by rwa [rules_after])
  cases mid with
  | nil =>
    obtain ⟨rfl, rfl⟩ := List.cons.inj hparts
    have hsuffix := h [] List.nil_prefix
    rw [List.append_nil] at hempty
    rw [hempty] at hsuffix
    exact absurd (List.suffix_nil.1 hsuffix) (by simp)
  | cons d mid =>
    obtain ⟨rfl, rfl⟩ := List.cons.inj hparts
    have hsuffix := h (mid ++ ['\n']) ⟨rest, by simp⟩
    rw [← List.cons_append, ← List.append_assoc, hempty] at hsuffix
    exact absurd (List.suffix_nil.1 hsuffix) (by simp)

/-! ### Pieces and what they lose -/

/-- A text that a line starts behind. -/
def StartsLine (u : List Char) : Prop := u = [] ∨ u.getLast? = some '\n'

theorem exists_startsLine (cs : List Char) : ∃ u v, cs = u ++ v ∧ StartsLine u ∧ '\n' ∉ v := by
  induction cs using List.reverseRecOn with
  | nil => exact ⟨[], [], rfl, .inl rfl, List.not_mem_nil⟩
  | append_singleton cs c ih =>
    by_cases hc : c = '\n'
    · exact ⟨cs ++ [c], [], by simp, .inr (by rw [hc]; simp), List.not_mem_nil⟩
    · obtain ⟨u, v, rfl, hu, hv⟩ := ih
      refine ⟨u, v ++ [c], by simp, hu, fun hmem => ?_⟩
      rcases List.mem_append.1 hmem with hmem | hmem
      · exact hv hmem
      · exact hc (List.mem_singleton.1 hmem).symm

theorem lastLine_eq {u v : List Char} (hu : StartsLine u) (hv : '\n' ∉ v) :
    lastLine (u ++ v) = (u.dropLast, v) := by
  have hplain : ∀ c ∈ v.reverse, (c != '\n') = true := fun c hc =>
    bne_iff_ne.2 fun heq => hv (heq ▸ List.mem_reverse.1 hc)
  have htail : (u.reverse.dropWhile (· != '\n')).tail = u.dropLast.reverse ∧
      u.reverse.takeWhile (· != '\n') = [] := by
    rcases hu with rfl | hu
    · exact ⟨rfl, rfl⟩
    · obtain ⟨front, rfl⟩ := List.getLast?_eq_some_iff.1 hu
      simp
  rw [lastLine, List.reverse_append, List.dropWhile_append_of_pos hplain,
    List.takeWhile_append_of_pos hplain, htail.1, htail.2, List.append_nil, List.reverse_reverse,
    List.reverse_reverse]

/-- A splitter holds the piece that starts behind the last statement end. -/
theorem exists_begins (rules : LexicalRules) (cs : List Char) : ∃ w,
    cs = w ++ (splitter rules cs).piece.reverse ∧ (splitter rules cs).start = width w ∧
      Begins rules w := by
  induction cs using List.reverseRecOn with
  | nil => exact ⟨[], rfl, rfl, .start⟩
  | append_singleton cs c ih =>
    cases hcut : cutsAt rules cs c with
    | true => exact ⟨cs ++ [c], by rw [splitter_of_cut hcut]; simp, by rw [splitter_of_cut hcut],
        .cut hcut⟩
    | false =>
      obtain ⟨w, hparts, hstart, hbegins⟩ := ih
      refine ⟨w, ?_, ?_, hbegins⟩
      · rw [splitter_of_not_cut hcut, List.reverse_cons, ← List.append_assoc, ← hparts]
      · rw [splitter_of_not_cut hcut, hstart]

/-- The piece that a terminator line ends holds the whole line. -/
theorem exists_piece {u v : List Char} (hv : '\n' ∉ v) (hcut : cutsAt rules (u ++ v) '\n' = true) :
    ∃ w x, u = w ++ x ∧ (splitter rules (u ++ v)).piece.reverse = x ++ v ∧
      (splitter rules (u ++ v)).start = width w := by
  obtain ⟨w, hparts, hstart, hbegins⟩ := exists_begins rules (u ++ v)
  generalize (splitter rules (u ++ v)).piece.reverse = raw at hparts ⊢
  have hw : w <+: u ++ v := ⟨raw, hparts.symm⟩
  rcases List.prefix_or_prefix_of_prefix hw (List.prefix_append u v) with ⟨x, rfl⟩ | ⟨z, rfl⟩
  · rw [List.append_assoc, List.append_cancel_left_eq] at hparts
    exact ⟨w, x, rfl, hparts.symm, hstart⟩
  · rw [List.append_assoc, List.append_cancel_left_eq] at hparts
    rcases List.eq_nil_or_concat z with rfl | ⟨z, e, rfl⟩
    · exact ⟨u, [], (List.append_nil u).symm, hparts.symm, by rw [hstart, List.append_nil]⟩
    · -- a statement end on the line would keep it from being a terminator line
      exfalso
      rw [List.concat_eq_append] at hparts hbegins
      rw [← List.append_assoc] at hbegins
      have hline : u ++ v = u ++ z ++ e :: raw := by
        rw [hparts]
        simp
      have hchar : e ≠ '\n' := fun heq => hv (by rw [hparts, heq]; simp)
      have hraw : '\n' ∉ raw := fun hmem => hv (by rw [hparts]; exact List.mem_append_right _ hmem)
      have hnot := not_cut_behind_semicolon (sound_fresh rules) hbegins.cutsAt hchar hraw
      rw [hline] at hcut
      exact absurd (hcut.symm.trans hnot) (by simp)

/-- The byte at `i` lies in the text of a statement. -/
def Covers (s : Statement) (i : Nat) : Prop := s.offset ≤ i ∧ i < s.offset + width s.text

/-- A statement ends where the body of its piece does. -/
theorem stop_of_ofPiece? {start : Nat} {raw : List Char} {s : Statement}
    (h : ofPiece? rules start raw = some s) :
    s.offset + width s.text = start + width (stripTerminator rules raw) := by
  obtain ⟨w, -, hbody⟩ := exists_blanks (stripTerminator rules raw)
  have hwidth := congrArg width hbody
  rw [width_append] at hwidth
  unfold ofPiece? at h
  dsimp only at h
  split at h
  · exact absurd h (by simp)
  · obtain rfl := Option.some.inj h
    dsimp only
    omega

theorem exists_covers {start : Nat} {raw y : List Char} {c : Char} (hc : isBlank c = false)
    (h : y ++ [c] <+: stripTerminator rules raw) :
    ∃ s, ofPiece? rules start raw = some s ∧ Covers s (start + width y) := by
  obtain ⟨z, hz⟩ := h
  obtain ⟨w, hw, hbody⟩ := exists_blanks (stripTerminator rules raw)
  -- the white space in front of the text is in front of `c`
  have hprefix : w <+: y := by
    have hboth : y ++ [c] <+: stripTerminator rules raw := ⟨z, hz⟩
    rcases List.prefix_or_prefix_of_prefix (show w <+: _ from ⟨_, hbody.symm⟩)
      ((List.prefix_append y [c]).trans hboth) with h | ⟨m, rfl⟩
    · exact h
    · cases m with
      | nil => exact ⟨[], by simp⟩
      | cons d m =>
        rw [hbody, List.append_assoc, List.append_assoc, List.append_cancel_left_eq] at hz
        obtain rfl := (List.cons.inj hz).1
        rw [hw c (by simp)] at hc
        exact absurd hc (by simp)
  obtain ⟨m, rfl⟩ := hprefix
  have htext : trimStart (stripTerminator rules raw) = m ++ c :: z := by
    rw [hbody, List.append_assoc, List.append_assoc, List.append_cancel_left_eq] at hz
    rw [← hz]
    simp
  have hwidth := congrArg width hbody
  rw [width_append] at hwidth
  refine ⟨⟨start + width w, m ++ c :: z⟩, ?_, ?_⟩
  · unfold ofPiece?
    dsimp only
    rw [htext, if_neg (by simp)]
    rw [htext] at hwidth
    rw [hwidth, Nat.add_sub_cancel]
  · have hpos := c.utf8Size_pos
    simp only [Covers, width_append, width_cons]
    omega

/-- Whether a line reads `/` or `GO` without its white space, under the rules that know it. -/
def LoneTerminator (rules : LexicalRules) (line : List Char) : Prop :=
  (rules.slashLines = true ∧ trim line = ['/']) ∨
    (rules.goLines = true ∧ upper (trim line) = ['G', 'O'])

instance (rules : LexicalRules) (line : List Char) : Decidable (LoneTerminator rules line) := by
  unfold LoneTerminator
  infer_instance

theorem trimStart_trimEnd_comm (v : List Char) : trimStart (trimEnd v) = trimEnd (trimStart v) := by
  obtain ⟨w, hw, hparts⟩ := exists_blanks v
  cases htext : trimStart v with
  | nil =>
    rw [htext, List.append_nil] at hparts
    rw [hparts, ← List.nil_append w, trimEnd_append_blanks [] hw]
    rfl
  | cons c m =>
    have hc : isBlank c = false := by
      have hhead := List.head?_dropWhile_not isBlank v
      rw [← trimStart, htext] at hhead
      simpa using hhead
    rw [htext] at hparts
    rw [hparts, trimEnd_append_of_not_blank hc, trimStart, List.dropWhile_append_of_pos hw]
    exact trimStart_trimEnd hc m

theorem trim_trimEnd (v : List Char) : trim (trimEnd v) = trim v := by
  rw [trim, trim, trimStart_trimEnd_comm, trimEnd_trimEnd]

theorem trimEnd_stripTerminator (rules : LexicalRules) (raw : List Char) :
    trimEnd (stripTerminator rules raw) = stripTerminator rules raw := by
  have hsemicolon : ∀ body : List Char, trimEnd body = body →
      trimEnd (if body.getLast? = some ';' then trimEnd body.dropLast else body) =
        if body.getLast? = some ';' then trimEnd body.dropLast else body := by
    intro body hbody
    split
    · exact trimEnd_trimEnd _
    · exact hbody
  unfold stripTerminator
  refine hsemicolon _ ?_
  split <;> exact trimEnd_trimEnd _

/-- A statement ends in no white space. -/
theorem trimEnd_of_ofPiece? {start : Nat} {raw : List Char} {s : Statement}
    (h : ofPiece? rules start raw = some s) : trimEnd s.text = s.text := by
  unfold ofPiece? at h
  dsimp only at h
  split at h
  · exact absurd h (by simp)
  · obtain rfl := Option.some.inj h
    rw [← trimStart_trimEnd_comm, trimEnd_stripTerminator]

theorem stripTerminator_line (rules : LexicalRules) {x v : List Char} (hx : StartsLine x)
    (hv : '\n' ∉ v) (hblank : ∃ c ∈ v, isBlank c = false) :
    stripTerminator rules (x ++ v ++ ['\n']) =
      let body := if LoneTerminator rules v then trimEnd x.dropLast else x ++ trimEnd v
      if body.getLast? = some ';' then trimEnd body.dropLast else body := by
  obtain ⟨c, hc, hblank⟩ := hblank
  obtain ⟨front, rest, rfl⟩ := List.append_of_mem hc
  have hbody : trimEnd (x ++ (front ++ c :: rest) ++ ['\n']) = x ++ trimEnd (front ++ c :: rest) := by
    rw [trimEnd_append_blanks _ (by decide), ← List.append_assoc,
      trimEnd_append_of_not_blank hblank, trimEnd_append_of_not_blank hblank, List.append_assoc]
  have hend : '\n' ∉ trimEnd (front ++ c :: rest) := fun hmem =>
    hv ((trimEnd_isPrefix _).mem hmem)
  have hlast : lastLine (x ++ trimEnd (front ++ c :: rest)) =
      (x.dropLast, trimEnd (front ++ c :: rest)) := lastLine_eq hx hend
  unfold stripTerminator
  dsimp only
  rw [hbody, hlast]
  dsimp only
  rw [trim_trimEnd]
  rfl

/-- Nothing of a lone terminator is left. -/
theorem stripTerminator_of_lone {x v : List Char} (hx : StartsLine x) (hv : '\n' ∉ v)
    (hblank : ∃ c ∈ v, isBlank c = false) (hlone : LoneTerminator rules v) :
    stripTerminator rules (x ++ v ++ ['\n']) <+: x := by
  have hbody : trimEnd x.dropLast <+: x := (trimEnd_isPrefix _).trans (List.dropLast_prefix x)
  rw [stripTerminator_line rules hx hv hblank, if_pos hlone]
  dsimp only
  split
  · exact ((trimEnd_isPrefix _).trans (List.dropLast_prefix _)).trans hbody
  · exact hbody

/-- Any other line stays up to the `;` that it may end with. -/
theorem isPrefix_of_not_lone {x v front rest : List Char} {c : Char} (hx : StartsLine x)
    (hv : '\n' ∉ v) (hparts : v = front ++ c :: rest) (hc : isBlank c = false) (hsemicolon : c ≠ ';')
    (hlone : ¬ LoneTerminator rules v) :
    x ++ front ++ [c] <+: stripTerminator rules (x ++ v ++ ['\n']) := by
  have hbody : x ++ front ++ [c] <+: x ++ trimEnd v := by
    rw [List.append_assoc, List.prefix_append_right_inj]
    exact isPrefix_trimEnd hc ⟨rest, by rw [hparts]; simp⟩
  rw [stripTerminator_line rules hx hv ⟨c, by rw [hparts]; simp, hc⟩, if_neg hlone]
  dsimp only
  split
  case isFalse => exact hbody
  case isTrue hlast =>
    obtain ⟨z, hz⟩ := hbody
    refine isPrefix_trimEnd hc ?_
    rw [← hz] at hlast ⊢
    rcases List.eq_nil_or_concat z with rfl | ⟨z, e, rfl⟩
    · rw [List.append_nil, List.getLast?_concat] at hlast
      exact absurd (Option.some.inj hlast) hsemicolon
    · rw [List.concat_eq_append, ← List.append_assoc, List.dropLast_concat]
      exact List.prefix_append _ _

/-! ### The statement that a terminator line ends -/

/-- A statement end keeps what was found before, in front of where the next piece starts. -/
theorem stop_le_start (rules : LexicalRules) (cs : List Char) {s : Statement}
    (hs : s ∈ (splitter rules cs).found) : s.offset + width s.text ≤ (splitter rules cs).start := by
  induction cs using List.reverseRecOn with
  | nil => exact absurd hs List.not_mem_nil
  | append_singleton cs c ih =>
    cases hcut : cutsAt rules cs c with
    | false =>
      rw [splitter_of_not_cut hcut] at hs ⊢
      exact ih hs
    | true =>
      obtain ⟨w, hparts, hstart, -⟩ := exists_begins rules cs
      have hwidth := congrArg width hparts
      rw [width_append, ← hstart] at hwidth
      rw [splitter_of_cut hcut] at hs ⊢
      rw [statement?_splitter, width_append]
      rcases List.mem_append.1 hs with hs | hs
      · rw [statement?_splitter] at hs
        split at hs
        case isFalse => exact absurd hs (by simp)
        case isTrue =>
          have hstop := stop_of_ofPiece? (Option.mem_toList.1 hs)
          obtain ⟨z, hz⟩ := stripTerminator_isPrefix rules (c :: (splitter rules cs).piece).reverse
          have hbody := congrArg width hz
          rw [width_append, List.reverse_cons, width_append] at hbody
          dsimp only
          rw [List.reverse_cons] at hstop
          omega
      · have hbefore := ih hs
        dsimp only
        omega

theorem lastContent_of_cut_newline {front : List Char} (hcut : cutsAt rules front '\n' = true) :
    (after rules (front ++ ['\n'])).lastContent = true := by
  have hbacked : (after rules front).Backed := by
    have hscan := (content_of_scan rules (encode front)).1
    rwa [(scanner_scan rules (encode front)).1, ← feedText, ← after_eq_feedText] at hscan
  rw [cutsAt, feedChar_of_lt _ (by decide)] at hcut
  rw [after_concat, feedChar_of_lt _ (by decide)]
  exact (hbacked.step '\n').2 hcut

/-- The statements of a script that a terminator line cuts: those found before, the one that the
line ends, and those behind it. -/
theorem split_of_terminatorLine {d : Dialect} {front rest : List Char} {statements : List Statement}
    (hcut : cutsAt d.rules front '\n' = true)
    (hsplit : split d.rules (front ++ '\n' :: rest) = .ok statements) : ∃ before later,
      statements = before ++ (ofPiece? d.rules (splitter d.rules front).start
        ((splitter d.rules front).piece.reverse ++ ['\n'])).toList ++ later ∧
      (∀ s ∈ before, s.offset + width s.text ≤ (splitter d.rules front).start) ∧
      ∀ s ∈ later, width front < s.offset := by
  have hjoin : Joined d.rules (front ++ ['\n']) rest := fun u v w hdone =>
    absurd ((List.append_inj' hdone rfl).2) (by decide)
  have hscript : front ++ '\n' :: rest = front ++ ['\n'] ++ rest := by simp
  rw [hscript, split_append (lineFree_or d) (.cut hcut) (.inl hjoin)] at hsplit
  cases hrest : split d.rules rest with
  | error e =>
    rw [hrest] at hsplit
    exact absurd hsplit (by simp [Except.map])
  | ok new =>
    rw [hrest] at hsplit
    obtain rfl := Except.ok.inj hsplit
    refine ⟨(splitter d.rules front).found.reverse, new.map (moved (width (front ++ ['\n']))), ?_,
      fun s hs => stop_le_start _ _ (List.mem_reverse.1 hs), fun s hs => ?_⟩
    · rw [splitter_of_cut hcut, lastContent_of_cut_newline hcut, statement?_splitter, if_pos rfl,
        List.reverse_append, List.reverse_cons]
      cases ofPiece? d.rules (splitter d.rules front).start
        ((splitter d.rules front).piece.reverse ++ ['\n']) <;> rfl
    · obtain ⟨t, -, rfl⟩ := List.mem_map.1 hs
      have hone : Char.utf8Size '\n' = 1 := rfl
      simp only [moved, width_append, width_cons, width_nil, hone]
      omega

theorem StartsLine.of_append {w x : List Char} (h : StartsLine (w ++ x)) : StartsLine x := by
  rcases List.eq_nil_or_concat x with rfl | ⟨x, e, rfl⟩
  · exact .inl rfl
  · rw [List.concat_eq_append] at h ⊢
    rcases h with hnil | hlast
    · simp at hnil
    · rw [← List.append_assoc, List.getLast?_concat] at hlast
      exact .inr (by rw [List.getLast?_concat, hlast])

/-- What is on the line when it ends a statement stands in the last line of the text. -/
theorem StaysOnLine.exists_line (hrules : rules.backslashEscapes = false) {u v f r : List Char} {c : Char}
    (hu : StartsLine u) (hparts : u ++ v = f ++ c :: r) (h : StaysOnLine rules f c r) :
    ∃ y, f = u ++ y ∧ v = y ++ c :: r := by
  have hnot := h.not_mem hrules
  rcases List.append_eq_append_iff.1 hparts with ⟨y, rfl, hv⟩ | ⟨z, rfl, hz⟩
  · exact ⟨y, rfl, hv⟩
  · rcases List.eq_nil_or_concat z with rfl | ⟨z, e, rfl⟩
    · exact ⟨[], by simp, by simpa using hz.symm⟩
    · rw [List.concat_eq_append] at hu hz
      rcases hu with hnil | hlast
      · simp at hnil
      · rw [← List.append_assoc, List.getLast?_concat] at hlast
        exact absurd (by rw [hz, Option.some.inj hlast]; simp) hnot

/-- The statements of a script leave out a terminator line exactly if the line holds nothing but
the terminator and white space. -/
theorem free_of_terminator_iff {d : Dialect} {script front rest : List Char}
    {statements : List Statement} (hsplit : split d.rules script = .ok statements)
    (hscript : script = front ++ '\n' :: rest) (hcut : cutsAt d.rules front '\n' = true) :
    (∀ s ∈ statements, ∀ f c r, front = f ++ c :: r → StaysOnLine d.rules f c r →
      ¬ Covers s (width f)) ↔ LoneTerminator d.rules (lastLine front).2 := by
  subst hscript
  have hescape := backslashEscapes_of_cut hcut
  obtain ⟨before, later, hstatements, hbefore, hlater⟩ := split_of_terminatorLine hcut hsplit
  obtain ⟨f, c, r, hfront, hon, hchar⟩ := exists_staysOnLine hcut
  have hc : isBlank c = false ∧ c ≠ ';' := by rcases hchar with rfl | rfl | rfl <;> decide
  obtain ⟨u, v, rfl, hu, hv⟩ := exists_startsLine front
  obtain ⟨w, x, rfl, hpiece, hstart⟩ := exists_piece hv hcut
  obtain ⟨y, rfl, hline⟩ := hon.exists_line hescape hu hfront
  have hx : StartsLine x := hu.of_append
  rw [hstart] at hbefore
  rw [hstart, hpiece] at hstatements
  subst hstatements
  rw [lastLine_eq hu hv]
  constructor
  · -- any other line leaves the first character of its terminator behind
    intro hfree
    refine Decidable.byContradiction fun hlone => ?_
    have hprefix := isPrefix_of_not_lone hx hv hline hc.1 hc.2 hlone
    obtain ⟨s, hs, hcovers⟩ : ∃ s, ofPiece? d.rules (width w) (x ++ v ++ ['\n']) = some s ∧
        Covers s (width w + width (x ++ y)) := exists_covers hc.1 hprefix
    refine hfree s ?_ _ c r hfront hon ?_
    · exact List.mem_append_left _ (List.mem_append_right _ (Option.mem_toList.2 hs))
    · rwa [List.append_assoc, width_append]
  · intro hlone s hs f' c' r' hfront' hon' hcovers
    obtain ⟨y', rfl, -⟩ := hon'.exists_line hescape hu hfront'
    rw [Covers, width_append, width_append] at hcovers
    rcases List.mem_append.1 hs with hs | hs
    · rcases List.mem_append.1 hs with hs | hs
      · have hstop := hbefore s hs
        omega
      · obtain ⟨z, hz⟩ := stripTerminator_of_lone hx hv ⟨c, by rw [hline]; simp, hc.1⟩ hlone
        have hwidth := congrArg width hz
        have hstop := stop_of_ofPiece? (Option.mem_toList.1 hs)
        rw [width_append] at hwidth
        omega
    · have hoffset := hlater s hs
      have hwidth := congrArg width hfront'
      simp only [width_append, width_cons] at hwidth hoffset
      omega

theorem free_of_terminator_iff_two_lines :
    let rules := Dialect.sqlServer.rules
    (cutsAt rules "SELECT 1\n go\r".toList '\n' = true ∧
      split rules "SELECT 1\n go\r\nSELECT 2;".toList =
        .ok [⟨0, "SELECT 1".toList⟩, ⟨14, "SELECT 2".toList⟩] ∧
      ∀ s ∈ [Statement.mk 0 "SELECT 1".toList, ⟨14, "SELECT 2".toList⟩], ∀ f c r,
        "SELECT 1\n go\r".toList = f ++ c :: r → StaysOnLine rules f c r → ¬ Covers s (width f)) ∧
    cutsAt rules "SELECT 1\nGO -- done".toList '\n' = true ∧
      split rules "SELECT 1\nGO -- done\nSELECT 2;".toList =
        .ok [⟨0, "SELECT 1\nGO -- done".toList⟩, ⟨20, "SELECT 2".toList⟩] ∧
      ¬ ∀ s ∈ [Statement.mk 0 "SELECT 1\nGO -- done".toList, ⟨20, "SELECT 2".toList⟩], ∀ f c r,
        "SELECT 1\nGO -- done".toList = f ++ c :: r → StaysOnLine rules f c r →
          ¬ Covers s (width f) := by
  refine ⟨⟨by decide +kernel, by decide +kernel, ?_⟩, by decide +kernel, by decide +kernel, ?_⟩
  · exact (@free_of_terminator_iff .sqlServer "SELECT 1\n go\r\nSELECT 2;".toList _
      "SELECT 2;".toList _ (by decide +kernel) rfl (by decide +kernel)).2 (by decide +kernel)
  · exact (@free_of_terminator_iff .sqlServer "SELECT 1\nGO -- done\nSELECT 2;".toList _
      "SELECT 2;".toList _ (by decide +kernel) rfl (by decide +kernel)).not.2 (by decide +kernel)

end DdlBridge.Statement
