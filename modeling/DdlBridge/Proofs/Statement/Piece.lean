import DdlBridge.Proofs.Statement.Reading
import DdlBridge.Proofs.Statement.Rejected

/-!
# A statement and its `;`

A text in which nothing ends is one piece (`split_of_cutFree`), and so is a script in which nothing
ends before its last `;` (`split_of_uncut`): what stands before the `;` without the white space
around it (`ofPiece?_semicolon`).
-/

namespace DdlBridge.Statement

open Scanner Text

variable {rules : LexicalRules} {ls : List Lexeme}

theorem textOf_concat (ls : List Lexeme) : textOf (ls ++ [.punct ';']) = textOf ls ++ [';'] := by
  simp [textOf, Lexeme.text]

theorem textOf_append (ls ls' : List Lexeme) : textOf (ls ++ ls') = textOf ls ++ textOf ls' :=
  List.flatMap_append

theorem textOf_cons (l : Lexeme) (ls : List Lexeme) : textOf (l :: ls) = l.text ++ textOf ls :=
  List.flatMap_cons

/-! ### Texts that end no statement -/

/-- No statement ends within the text. -/
def CutFree (rules : LexicalRules) (cs : List Char) : Prop := (feedText (fresh rules) cs).2 = false

instance (rules : LexicalRules) (cs : List Char) : Decidable (CutFree rules cs) :=
  inferInstanceAs (Decidable (_ = _))

theorem cutFree_nil (rules : LexicalRules) : CutFree rules [] := rfl

theorem cutFree_concat {cs : List Char} {c : Char} :
    CutFree rules (cs ++ [c]) ↔ CutFree rules cs ∧ cutsAt rules cs c = false := by
  rw [CutFree, feedText_append, feedText_singleton, Bool.or_eq_false_iff, cutsAt, after_eq_feedText]
  rfl

theorem CutFree.left {front cs : List Char} (h : CutFree rules (front ++ cs)) : CutFree rules front := by
  rw [CutFree, feedText_append] at h
  exact (Bool.or_eq_false_iff.1 h).1

theorem CutFree.not_cutsAt {cs front rest : List Char} {c : Char} (h : CutFree rules cs)
    (htext : cs = front ++ c :: rest) : cutsAt rules front c = false := by
  rw [htext, List.append_cons] at h
  exact (cutFree_concat.1 h.left).2

theorem splitter_of_cutFree {cs : List Char} (h : CutFree rules cs) :
    (splitter rules cs).piece = cs.reverse ∧ (splitter rules cs).start = 0 ∧
      (splitter rules cs).found = [] :=
  splitter_uncut rules cs fun _ _ _ => h.not_cutsAt

/-- Content stays until the statement ends. -/
theorem content_of_cutFree_append {front cs : List Char} (hcontent : (after rules front).content = true)
    (h : CutFree rules (front ++ cs)) : (after rules (front ++ cs)).content = true := by
  induction cs using List.reverseRecOn with
  | nil => rwa [List.append_nil]
  | append_singleton cs c ih =>
    rw [← List.append_assoc] at h ⊢
    obtain ⟨hcs, hc⟩ := cutFree_concat.1 h
    have hkept := kept_feedChar (sound_after rules (front ++ cs)) (ih hcs) c
    rw [cutsAt] at hc
    rwa [kept, hc, if_neg (by simp), ← after_concat] at hkept

theorem content_of_cutFree_cons {c : Char} {cs : List Char} (hcontent : (after rules [c]).content = true)
    (h : CutFree rules (c :: cs)) : (after rules (c :: cs)).content = true := by
  have hparts : c :: cs = [c] ++ cs := rfl
  rw [hparts] at h ⊢
  exact content_of_cutFree_append hcontent h

/-- A statement with content that ends is found, if its piece holds one. -/
theorem found_of_lastContent {cs : List Char} {e : Char} (hfree : CutFree rules cs)
    (hcut : cutsAt rules cs e = true) (hcontent : (after rules (cs ++ [e])).lastContent = true) :
    (splitter rules (cs ++ [e])).found = (ofPiece? rules 0 (cs ++ [e])).toList := by
  obtain ⟨hreading, hstart, hfound⟩ := splitter_of_cutFree hfree
  have hraw : (e :: (splitter rules cs).piece).reverse = cs ++ [e] := by
    rw [hreading, List.reverse_cons, List.reverse_reverse]
  rw [splitter_of_cut hcut, hcontent, statement?_splitter, if_pos rfl, hstart, hraw, hfound,
    List.append_nil]

theorem found_of_cut {cs : List Char} {e : Char} {s : Statement} (hfree : CutFree rules cs)
    (hcontent : (after rules cs).content = true) (hcut : cutsAt rules cs e = true)
    (hpiece : ofPiece? rules 0 (cs ++ [e]) = some s) : (splitter rules (cs ++ [e])).found = [s] := by
  have hkept := kept_feedChar (sound_after rules cs) hcontent e
  rw [kept, if_pos (by rwa [cutsAt] at hcut), ← after_concat] at hkept
  rw [found_of_lastContent hfree hcut hkept, hpiece]
  rfl

theorem split_of_cut {cs : List Char} {e : Char} {s : Statement} (hfree : CutFree rules cs)
    (hcontent : (after rules cs).content = true) (hcut : cutsAt rules cs e = true)
    (hpiece : ofPiece? rules 0 (cs ++ [e]) = some s) : split rules (cs ++ [e]) = .ok [s] := by
  rw [split_of_begins (.cut hcut), found_of_cut hfree hcontent hcut hpiece]
  rfl

/-- Where nothing ends the text is one piece. -/
theorem split_of_finished_cutFree {cs : List Char} (hfree : CutFree rules cs)
    (hcontent : (after rules cs).content = true) (hfinished : (after rules cs).unfinished? = none) :
    split rules cs = .ok (ofPiece? rules 0 cs).toList := by
  obtain ⟨hreading, hstart, hfound⟩ := splitter_of_cutFree hfree
  rw [split_of_finished hfinished, hcontent, statement?_splitter, if_pos rfl, hstart, hreading,
    List.reverse_reverse, hfound]
  rfl

theorem split_of_cutFree {cs : List Char} {s : Statement} (hfree : CutFree rules cs)
    (hcontent : (after rules cs).content = true) (hfinished : (after rules cs).unfinished? = none)
    (hpiece : ofPiece? rules 0 cs = some s) : split rules cs = .ok [s] := by
  rw [split_of_finished_cutFree hfree hcontent hfinished, hpiece]
  rfl

/-! ### A script and its last `;` -/

theorem cutFree_of_uncut (hscript : Script rules ls) (huncut : (takeAll (fresh rules) ls).2 = false) :
    CutFree rules (textOf ls) :=
  (feedText_fresh hscript).2.trans huncut

theorem after_semicolon (hscript : Script rules (ls ++ [.punct ';'])) :
    after rules (textOf (ls ++ [.punct ';'])) = (take (takeAll (fresh rules) ls).1 (.punct ';')).1 := by
  rw [textOf_concat, after_concat, after_eq_feedText, feedChar_semicolon hscript]

theorem cutsAt_semicolon (hscript : Script rules (ls ++ [.punct ';'])) :
    cutsAt rules (textOf ls) ';' = (take (takeAll (fresh rules) ls).1 (.punct ';')).2 := by
  rw [cutsAt, after_eq_feedText, feedChar_semicolon hscript]

theorem content_of_uncut {s : Scanner} (huncut : (take s (.punct ';')).2 = false) :
    (take s (.punct ';')).1.content = true := by
  rw [take, if_pos rfl] at huncut ⊢
  unfold terminator at huncut ⊢
  split
  case isTrue => rfl
  case isFalse hopen => exact absurd huncut (by simp [hopen])

/-- Where nothing ends before the last `;`, there is one piece. -/
theorem split_of_uncut (hscript : Script rules (ls ++ [.punct ';']))
    (huncut : (takeAll (fresh rules) ls).2 = false) : split rules (textOf (ls ++ [.punct ';'])) =
      .ok (ofPiece? rules 0 (textOf (ls ++ [.punct ';']))).toList := by
  have hs := settled_fresh rules
  have hafter := after_semicolon hscript
  have hfree := cutFree_of_uncut hscript.left huncut
  have hends := cutsAt_semicolon hscript
  rw [textOf_concat] at hafter ⊢
  cases hcut : (take (takeAll (fresh rules) ls).1 (.punct ';')).2 with
  | true =>
    have hlast : (after rules (textOf ls ++ [';'])).lastContent = true := by
      rw [hafter]
      exact lastContent_of_cut hcut
    rw [hcut] at hends
    rw [split_of_begins (.cut hends), found_of_lastContent hfree hends hlast]
    cases ofPiece? rules 0 (textOf ls ++ [';']) <;> rfl
  | false =>
    have hregion : (take (takeAll (fresh rules) ls).1 (.punct ';')).1.region = .normal :=
      ((hs.takeAll ls).take (.punct ';')).region
    have hfinished : (after rules (textOf ls ++ [';'])).unfinished? = none := by
      rw [hafter, unfinished?, hregion]
    have hcontent : (after rules (textOf ls ++ [';'])).content = true := by
      rw [hafter]
      exact content_of_uncut hcut
    exact split_of_finished_cutFree (cutFree_concat.2 ⟨hfree, hends.trans hcut⟩) hcontent hfinished

/-! ### A piece without its `;` -/

theorem trimEnd_concat {cs : List Char} {c : Char} (hc : isBlank c = false) :
    trimEnd (cs ++ [c]) = cs ++ [c] := by
  rw [trimEnd, List.reverse_append, List.reverse_singleton, List.singleton_append,
    List.dropWhile_cons_of_neg (by rw [hc]; simp), List.reverse_cons, List.reverse_reverse]

theorem trimEnd_trimEnd (cs : List Char) : trimEnd (trimEnd cs) = trimEnd cs := by
  rw [trimEnd, trimEnd, List.reverse_reverse, List.dropWhile_idempotent]

theorem trimEnd_append_of_not_blank {c : Char} (hc : isBlank c = false) (front cs : List Char) :
    trimEnd (front ++ c :: cs) = front ++ trimEnd (c :: cs) := by
  have hne : (List.dropWhile isBlank (c :: cs).reverse).isEmpty = false := by
    rw [← Bool.not_eq_true, List.isEmpty_iff, List.dropWhile_eq_nil_iff]
    intro hall
    have hblank := hall c (by simp)
    rw [hc] at hblank
    exact absurd hblank (by simp)
  rw [trimEnd, trimEnd, List.reverse_append, List.dropWhile_append, hne, if_neg (by simp),
    List.reverse_append, List.reverse_reverse]

theorem exists_trimEnd {c : Char} (hc : isBlank c = false) (cs : List Char) :
    ∃ more, trimEnd (c :: cs) = c :: more := by
  have hfront : [] ++ [c] <+: c :: cs := ⟨cs, rfl⟩
  obtain ⟨more, hmore⟩ := isPrefix_trimEnd hc hfront
  exact ⟨more, hmore.symm⟩

theorem trimStart_trimEnd {c : Char} (hc : isBlank c = false) (cs : List Char) :
    trimStart (trimEnd (c :: cs)) = trimEnd (c :: cs) := by
  obtain ⟨more, hmore⟩ := exists_trimEnd hc cs
  rw [hmore]
  exact List.dropWhile_cons_of_neg (by rw [hc]; simp)

theorem exists_blanks (cs : List Char) :
    ∃ w, (∀ c ∈ w, isBlank c = true) ∧ cs = w ++ trimStart cs :=
  ⟨cs.takeWhile isBlank, fun _ => List.mem_takeWhile_imp, List.takeWhile_append_dropWhile.symm⟩

theorem exists_blanks_trim (cs : List Char) :
    ∃ w more, (∀ c ∈ w, isBlank c = true) ∧ cs = w ++ (trim cs ++ more) := by
  obtain ⟨w, hw, hparts⟩ := exists_blanks cs
  obtain ⟨more, hmore⟩ := trimEnd_isPrefix (trimStart cs)
  exact ⟨w, more, hw, by rw [trim, hmore, ← hparts]⟩

theorem trim_trim (cs : List Char) : trim (trim cs) = trim cs := by
  have hstart : trimStart (trimEnd (trimStart cs)) = trimEnd (trimStart cs) := by
    cases htext : trimStart cs with
    | nil => rfl
    | cons c more =>
      have hhead := List.head?_dropWhile_not isBlank cs
      rw [← trimStart, htext] at hhead
      exact trimStart_trimEnd (by simpa using hhead) more
  rw [trim, trim, hstart, trimEnd_trimEnd]

/-- White space has no case. -/
theorem toUpper_of_isBlank {c : Char} (h : isBlank c = true) : c.toUpper = c := by
  have hlower : ¬ (c.val ≥ 'a'.val ∧ c.val ≤ 'z'.val) := by
    rintro ⟨ha, hz⟩
    rw [ge_iff_le, UInt32.le_iff_toNat_le] at ha
    rw [UInt32.le_iff_toNat_le] at hz
    have hval : c.toNat = c.val.toNat := rfl
    have hna : 'a'.val.toNat = 97 := rfl
    have hnz : 'z'.val.toNat = 122 := rfl
    simp [isBlank, covers, blankRanges] at h
    omega
  unfold Char.toUpper
  rw [dif_neg hlower]

theorem getLast?_trim {cs : List Char} {c : Char} (hc : isBlank c = false) :
    (trim (cs ++ [c])).getLast? = some c := by
  have hend : trimEnd (trimStart (cs ++ [c])) = trimStart (cs ++ [c]) := by
    have hlast : ∃ front, trimStart (cs ++ [c]) = front ++ [c] := by
      rw [trimStart, List.dropWhile_append]
      split
      · exact ⟨[], List.dropWhile_cons_of_neg (by rw [hc]; simp)⟩
      · exact ⟨_, rfl⟩
    obtain ⟨front, hfront⟩ := hlast
    rw [hfront, trimEnd_concat hc]
  rw [trim, hend, trimStart, List.dropWhile_append]
  split
  · rw [List.dropWhile_cons_of_neg (by rw [hc]; simp)]
    rfl
  · rw [List.getLast?_append]
    rfl

theorem exists_lastLine (cs : List Char) {c : Char} (hc : c ≠ '\n') :
    ∃ front, (lastLine (cs ++ [c])).2 = front ++ [c] := by
  refine ⟨(cs.reverse.takeWhile (· != '\n')).reverse, ?_⟩
  rw [lastLine]
  dsimp only
  rw [List.reverse_append, List.reverse_singleton, List.singleton_append,
    List.takeWhile_cons_of_pos (by simpa using hc), List.reverse_cons]

theorem stripTerminator_semicolon (rules : LexicalRules) (cs : List Char) :
    stripTerminator rules (cs ++ [';']) = trimEnd cs := by
  obtain ⟨front, hfront⟩ := exists_lastLine cs (c := ';') (by decide)
  have hlast : (trim (lastLine (cs ++ [';'])).2).getLast? = some ';' := by
    rw [hfront]
    exact getLast?_trim (by decide)
  have hslash : trim (lastLine (cs ++ [';'])).2 ≠ ['/'] := by
    intro heq
    rw [heq] at hlast
    exact absurd hlast (by decide)
  have hgo : upper (trim (lastLine (cs ++ [';'])).2) ≠ ['G', 'O'] := by
    intro heq
    have hupper : (upper (trim (lastLine (cs ++ [';'])).2)).getLast? = some ';' := by
      rw [upper, List.getLast?_map, hlast]
      rfl
    rw [heq] at hupper
    exact absurd hupper (by decide)
  have hline : ¬ ((rules.slashLines = true ∧ trim (lastLine (cs ++ [';'])).2 = ['/']) ∨
      (rules.goLines = true ∧ upper (trim (lastLine (cs ++ [';'])).2) = ['G', 'O'])) := by
    rintro (h | h)
    · exact hslash h.2
    · exact hgo h.2
  unfold stripTerminator
  dsimp only
  rw [trimEnd_concat (by decide), if_neg hline, if_pos (by simp), List.dropLast_concat]

/-- The statement before a `;`. -/
theorem ofPiece?_semicolon (rules : LexicalRules) (start : Nat) {c : Char} {cs : List Char}
    (hc : isBlank c = false) :
    ofPiece? rules start (c :: cs ++ [';']) = some ⟨start, trimEnd (c :: cs)⟩ := by
  obtain ⟨more, hmore⟩ := exists_trimEnd hc cs
  have hstart := trimStart_trimEnd hc cs
  have hne : (trimEnd (c :: cs)).isEmpty = false := by
    rw [hmore]
    rfl
  unfold ofPiece?
  dsimp only
  rw [stripTerminator_semicolon, hstart, hne, Nat.sub_self]
  rfl

end DdlBridge.Statement
