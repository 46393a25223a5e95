import DdlBridge.Proofs.Grammar.Script
import DdlBridge.Proofs.Statement.TerminatorText
import DdlBridge.Proofs.Statement.Unbroken

/-!
# Scripts that start with a text

A text that ends no statement is where the first statement of a script starts, whatever follows it
(`exists_split_of_front`). A script is rejected if every such statement is
(`exists_parseScript_error`).
-/

namespace DdlBridge.Statement

open Scanner Text

variable {rules : LexicalRules} {c : Char} {cs : List Char}

/-! ### What a statement keeps of its front -/

theorem stripTerminator_trimEnd (rules : LexicalRules) (raw : List Char) :
    stripTerminator rules (trimEnd raw) = stripTerminator rules raw := by
  unfold stripTerminator
  rw [trimEnd_trimEnd]

theorem stripTerminator_newline (rules : LexicalRules) (raw : List Char) :
    stripTerminator rules (raw ++ ['\n']) = stripTerminator rules raw := by
  rw [← stripTerminator_trimEnd, trimEnd_append_blanks _ (by decide), stripTerminator_trimEnd]

/-- Behind the last line end a trimmed text has more than white space. -/
theorem exists_not_blank_of_trimEnd {front v : List Char}
    (h : trimEnd (front ++ '\n' :: v) = front ++ '\n' :: v) : ∃ c ∈ v, isBlank c = false := by
  by_contra hnone
  have hblank : ∀ c ∈ '\n' :: v, isBlank c = true := by
    intro c hc
    rcases List.mem_cons.1 hc with rfl | hc
    · decide
    · rw [← Bool.not_eq_false]
      exact fun hnot => hnone ⟨c, hc, hnot⟩
  rw [trimEnd_append_blanks front hblank] at h
  have hlength := (trimEnd_isPrefix front).length_le
  rw [h, List.length_append, List.length_cons] at hlength
  omega

theorem mem_trim {v : List Char} (hc : isBlank c = false) (h : c ∈ v) : c ∈ trim v := by
  have hdrop : ∀ v : List Char, c ∈ v → c ∈ v.dropWhile isBlank := by
    intro v hmem
    rw [← List.takeWhile_append_dropWhile (p := isBlank) (l := v), List.mem_append] at hmem
    refine hmem.resolve_left fun htake => ?_
    rw [List.mem_takeWhile_imp htake] at hc
    exact absurd hc (by simp)
  exact List.mem_reverse.2 (hdrop _ (List.mem_reverse.2 (hdrop v h)))

/-- A line is no terminator if it has another character on it. -/
theorem not_lone_of_mem {v : List Char} (hc : isBlank c = false) (hmark : c.toUpper ∉ ['/', 'G', 'O'])
    (h : c ∈ v) : ¬ LoneTerminator rules v := by
  have hmem := mem_trim hc h
  rintro (⟨-, heq⟩ | ⟨-, heq⟩)
  · rw [heq, List.mem_singleton] at hmem
    exact hmark (by rw [hmem]; decide)
  · have hupper : c.toUpper ∈ upper (trim v) := List.mem_map_of_mem hmem
    rw [heq] at hupper
    exact hmark (List.mem_cons_of_mem _ hupper)

/-- A character that no terminator line holds keeps all that stands before it. -/
theorem isPrefix_stripTerminator_of_mark {front : List Char} (hc : isBlank c = false)
    (hsemicolon : c ≠ ';') (hmark : c.toUpper ∉ ['/', 'G', 'O']) (w : List Char) :
    front ++ [c] <+: stripTerminator rules (front ++ [c] ++ w) := by
  have hnewline : c ≠ '\n' := fun heq => absurd hc (by rw [heq]; decide)
  obtain ⟨z, hz⟩ := isPrefix_trimEnd hc (List.prefix_append (front ++ [c]) w)
  rw [← stripTerminator_trimEnd, ← hz]
  have htrim : trimEnd (front ++ [c] ++ z) = front ++ [c] ++ z := by rw [hz, trimEnd_trimEnd]
  obtain ⟨u, v, rfl, hu, hv⟩ := exists_startsLine z
  rcases hu with rfl | hu
  · -- the last line holds the character
    obtain ⟨x, y, rfl, hx, hy⟩ := exists_startsLine front
    have hline : '\n' ∉ y ++ c :: v := by
      simp only [List.mem_append, List.mem_cons, not_or]
      exact ⟨hy, hnewline.symm, hv⟩
    have hmem : c ∈ y ++ c :: v := by simp
    have hlone : ¬ LoneTerminator rules (y ++ c :: v) := not_lone_of_mem hc hmark hmem
    have hkept := isPrefix_of_not_lone hx hline rfl hc hsemicolon hlone
    rw [stripTerminator_newline] at hkept
    simpa using hkept
  · -- it holds none of the front
    obtain ⟨rest, rfl⟩ := List.getLast?_eq_some_iff.1 hu
    have hparts : front ++ [c] ++ (rest ++ ['\n'] ++ v) = front ++ [c] ++ rest ++ '\n' :: v := by simp
    rw [hparts] at htrim ⊢
    exact isPrefix_stripTerminator rules front rest hc hsemicolon (exists_not_blank_of_trimEnd htrim)

/-! ### The first statement -/

/-- The text is left at the start of the statement that starts with it. -/
def KeepsFront (rules : LexicalRules) (front : List Char) : Prop :=
  ∀ w, front <+: stripTerminator rules (front ++ w)

theorem KeepsFront.exists_ofPiece? (h : KeepsFront rules (c :: cs)) (hc : isBlank c = false)
    (w : List Char) : ∃ y, stripTerminator rules (c :: cs ++ w) = c :: cs ++ y ∧
      ofPiece? rules 0 (c :: cs ++ w) = some ⟨0, c :: cs ++ y⟩ := by
  obtain ⟨y, hy⟩ := h w
  have hstart : trimStart (c :: cs ++ y) = c :: cs ++ y :=
    List.dropWhile_cons_of_neg (by rw [hc]; simp)
  refine ⟨y, hy.symm, ?_⟩
  unfold ofPiece?
  dsimp only
  rw [← hy, hstart, Nat.sub_self]
  rfl

/-- Where the statement ends it has no more than what stands before its end. -/
theorem KeepsFront.exists_ofPiece?_end (h : KeepsFront rules (c :: cs)) (hc : isBlank c = false)
    {e : Char} (he : e = ';' ∨ e = '\n') (w : List Char) :
    ∃ y, ofPiece? rules 0 (c :: cs ++ w ++ [e]) = some ⟨0, c :: cs ++ y⟩ ∧ y <+: w := by
  obtain ⟨y, hstrip, hpiece⟩ := h.exists_ofPiece? hc (w ++ [e])
  rw [← List.append_assoc] at hstrip hpiece
  have hend : c :: cs ++ y <+: c :: cs ++ w := by
    rw [← hstrip]
    rcases he with rfl | rfl
    · rw [stripTerminator_semicolon]
      exact trimEnd_isPrefix _
    · rw [stripTerminator_newline]
      exact stripTerminator_isPrefix rules _
  exact ⟨y, hpiece, (List.prefix_append_right_inj _).1 hend⟩

/-- What a splitter has found it keeps. -/
theorem found_isSuffix (rules : LexicalRules) (cs w : List Char) :
    (splitter rules cs).found <:+ (splitter rules (cs ++ w)).found := by
  induction w using List.reverseRecOn with
  | nil => exact (List.append_nil cs).symm ▸ List.suffix_rfl
  | append_singleton w e ih =>
    rw [← List.append_assoc]
    cases hcut : cutsAt rules (cs ++ w) e with
    | false =>
      rw [splitter_of_not_cut hcut]
      exact ih
    | true =>
      rw [splitter_of_cut hcut]
      exact ih.trans (List.suffix_append _ _)

/-- The first statement is the one that ends first. -/
theorem exists_split_of_cut {e : Char} {s : Statement} (hfree : CutFree rules cs)
    (hcontent : (after rules cs).content = true) (hcut : cutsAt rules cs e = true)
    (hpiece : ofPiece? rules 0 (cs ++ [e]) = some s) {w : List Char} {statements : List Statement}
    (hsplit : split rules (cs ++ e :: w) = .ok statements) : ∃ more, statements = s :: more := by
  obtain ⟨later, hlater⟩ := found_isSuffix rules (cs ++ [e]) w
  rw [found_of_cut hfree hcontent hcut hpiece, List.append_assoc, List.singleton_append] at hlater
  rw [split_of_ok hsplit, ← hlater, List.reverse_append, List.append_assoc]
  exact ⟨_, rfl⟩

theorem exists_split_of_front (hkeep : KeepsFront rules (c :: cs)) (hc : isBlank c = false)
    (hcontent : (after rules [c]).content = true) (hfree : CutFree rules (c :: cs)) {w : List Char}
    {statements : List Statement} (hsplit : split rules (c :: cs ++ w) = .ok statements) :
    ∃ s more, statements = s :: more ∧ c :: cs <+: s.text := by
  by_cases hall : CutFree rules (c :: cs ++ w)
  · obtain ⟨y, -, hs⟩ := hkeep.exists_ofPiece? hc w
    have hstill : (after rules (c :: cs ++ w)).content = true := content_of_cutFree_cons hcontent hall
    refine ⟨⟨0, c :: cs ++ y⟩, [], ?_, List.prefix_append _ y⟩
    obtain ⟨hreading, hstart, hfound⟩ := splitter_of_cutFree hall
    rw [split_of_ok hsplit, hstill, statement?_splitter, if_pos rfl, hstart, hreading,
      List.reverse_reverse, hs, hfound]
    rfl
  · obtain ⟨v, e, w, rfl, hv, hcut⟩ := exists_cut hfree hall
    obtain ⟨y, -, hs⟩ := hkeep.exists_ofPiece? hc (v ++ [e])
    have hstill : (after rules (c :: cs ++ v)).content = true := content_of_cutFree_cons hcontent hv
    rw [← List.append_assoc] at hsplit hs
    obtain ⟨more, hmore⟩ := exists_split_of_cut hv hstill hcut hs hsplit
    exact ⟨⟨0, c :: cs ++ y⟩, more, hmore, List.prefix_append _ y⟩

/-- A script is rejected if every statement is that starts as it does. -/
theorem exists_parseScript_error {d : Dialect} (hkeep : KeepsFront d.rules (c :: cs))
    (hc : isBlank c = false) (hcontent : (after d.rules [c]).content = true)
    (hfree : CutFree d.rules (c :: cs))
    (hreject : ∀ s : Statement, c :: cs <+: s.text → ∃ e, Grammar.ofStatement d s = .error e)
    (w : List Char) : ∃ e, parseScript d (c :: cs ++ w) = .error e := by
  have hscript : (trim (c :: cs ++ w)).isEmpty = false :=
    isEmpty_trim_eq_false.2 ⟨c, List.mem_cons_self, hc⟩
  cases hsplit : split d.rules (c :: cs ++ w) with
  | error e => exact ⟨e, parseScript_of_error hscript hsplit⟩
  | ok statements =>
    obtain ⟨s, more, rfl, hprefix⟩ := exists_split_of_front hkeep hc hcontent hfree hsplit
    obtain ⟨e, he⟩ := hreject s hprefix
    rw [parseScript_of_ok hscript hsplit]
    exact ⟨e, Grammar.define_cons_of_error he⟩

end DdlBridge.Statement
