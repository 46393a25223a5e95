import DdlBridge.Proofs.Statement.TerminatorText
import DdlBridge.Proofs.Statement.Unbroken

/-!
# Empty lines in front of a script

A line feed in front of a script moves its statements by one byte and changes nothing else
(`split_newline`).
-/

namespace DdlBridge.Statement

open Scanner Text

variable {rules : LexicalRules}

/-! ### Pieces -/

/-- The first text has one more line feed in front, unless both are empty. -/
inductive Lowered : List Char → List Char → Prop where
  | nil : Lowered [] []
  | newline (cs : List Char) : Lowered ('\n' :: cs) cs

namespace Lowered

variable {a b : List Char}

theorem trimEnd (h : Lowered a b) : Lowered (trimEnd a) (trimEnd b) := by
  cases h with
  | nil => exact .nil
  | newline =>
    by_cases hblank : ∀ c ∈ b, isBlank c = true
    · have hnil : ∀ cs : List Char, (∀ c ∈ cs, isBlank c = true) → Text.trimEnd cs = [] :=
        fun cs hcs => trimEnd_append_blanks [] hcs
      rw [hnil b hblank, hnil _ (List.forall_mem_cons.2 ⟨by decide, hblank⟩)]
      exact .nil
    · simp only [Classical.not_forall, Bool.not_eq_true] at hblank
      obtain ⟨c, hc, hblank⟩ := hblank
      obtain ⟨front, back, rfl⟩ := List.append_of_mem hc
      rw [← List.cons_append, trimEnd_append_of_not_blank hblank, trimEnd_append_of_not_blank hblank]
      exact .newline _

theorem lastLine (h : Lowered a b) :
    (lastLine a).2 = (lastLine b).2 ∧ Lowered (lastLine a).1 (lastLine b).1 := by
  cases h with
  | nil => exact ⟨rfl, .nil⟩
  | newline =>
    obtain ⟨u, v, rfl, hu, hv⟩ := exists_startsLine b
    have hlowered : StartsLine ('\n' :: u) := by
      rcases hu with rfl | hu
      · exact .inr rfl
      · exact .inr (by rw [List.getLast?_cons, hu]; rfl)
    rw [← List.cons_append, lastLine_eq hlowered hv, lastLine_eq hu hv]
    refine ⟨rfl, ?_⟩
    cases u with
    | nil => exact .nil
    | cons c u => exact .newline _

theorem getLast? (h : Lowered a b) : a.getLast? = some ';' ↔ b.getLast? = some ';' := by
  cases h with
  | nil => exact Iff.rfl
  | newline =>
    cases b with
    | nil => decide
    | cons c b => rw [List.getLast?_cons_cons]

theorem dropLast (h : Lowered a b) (hlast : b.getLast? = some ';') :
    Lowered a.dropLast b.dropLast := by
  cases h with
  | nil => exact .nil
  | newline =>
    cases b with
    | nil => exact absurd hlast (by simp)
    | cons c b => exact .newline _

theorem stripTerminator (h : Lowered a b) (rules : LexicalRules) :
    Lowered (stripTerminator rules a) (stripTerminator rules b) := by
  obtain ⟨hline, hfront⟩ := h.trimEnd.lastLine
  unfold Statement.stripTerminator
  dsimp only
  rw [hline]
  have hsemicolon : ∀ {a b : List Char}, Lowered a b →
      Lowered (if a.getLast? = some ';' then Text.trimEnd a.dropLast else a)
        (if b.getLast? = some ';' then Text.trimEnd b.dropLast else b) := by
    intro a b h
    by_cases hlast : b.getLast? = some ';'
    · rw [if_pos hlast, if_pos (h.getLast?.2 hlast)]
      exact (h.dropLast hlast).trimEnd
    · rw [if_neg hlast, if_neg fun ha => hlast (h.getLast?.1 ha)]
      exact h
  refine hsemicolon ?_
  split
  · exact hfront.trimEnd
  · exact h.trimEnd

end Lowered

theorem ofPiece?_newline (rules : LexicalRules) (start : Nat) (raw : List Char) :
    ofPiece? rules start ('\n' :: raw) = (ofPiece? rules start raw).map (moved 1) := by
  have hlowered := (Lowered.newline raw).stripTerminator rules
  unfold ofPiece?
  dsimp only
  generalize stripTerminator rules ('\n' :: raw) = a at hlowered ⊢
  generalize stripTerminator rules raw = b at hlowered ⊢
  cases hlowered with
  | nil => rfl
  | newline =>
    have htrim : trimStart ('\n' :: b) = trimStart b := List.dropWhile_cons_of_pos (by decide)
    have hle : width (trimStart b) ≤ width b := by
      obtain ⟨w, -, hparts⟩ := exists_blanks b
      rw [hparts, width_append, ← hparts]
      exact Nat.le_add_left _ _
    have hwidth : width ('\n' :: b) = 1 + width b := rfl
    rw [htrim]
    split
    · rfl
    · rw [Option.map_some, moved, hwidth]
      simp only [Option.some.injEq, Statement.mk.injEq, and_true]
      omega

/-! ### Scripts -/

theorem after_newline (rules : LexicalRules) (cs : List Char) :
    after rules ('\n' :: cs) = after rules cs := by
  have hquiet : Quiet (fresh rules) := quiet_onLine_fresh rules false
  rw [after, List.foldl_cons, hquiet.feedChar (by decide)]
  rfl

/-- The first piece has the line feed in front, and everything behind it is one byte further. -/
theorem splitter_newline (rules : LexicalRules) (cs : List Char) :
    let p := splitter rules cs
    let q := splitter rules ('\n' :: cs)
    (p.start = 0 ∧ p.found = [] ∧ q.start = 0 ∧ q.found = [] ∧ q.piece = p.piece ++ ['\n']) ∨
      (q.start = 1 + p.start ∧ q.found = p.found.map (moved 1) ∧ q.piece = p.piece) := by
  dsimp only
  induction cs using List.reverseRecOn with
  | nil =>
    have hcut : cutsAt rules [] '\n' = false := not_cutsAt_blanks (by decide)
    have hstep := splitter_of_not_cut hcut
    rw [List.nil_append] at hstep
    rw [hstep]
    exact .inl ⟨rfl, rfl, rfl, rfl, rfl⟩
  | append_singleton cs c ih =>
    have hsame : cutsAt rules ('\n' :: cs) c = cutsAt rules cs c := by
      rw [cutsAt, after_newline]
      rfl
    rw [← List.cons_append]
    cases hcut : cutsAt rules cs c with
    | false =>
      rw [splitter_of_not_cut hcut, splitter_of_not_cut (hsame.trans hcut)]
      rcases ih with ⟨hstart, hfound, hstart', hfound', hpiece⟩ | ⟨hstart, hfound, hpiece⟩
      · exact .inl ⟨hstart, hfound, hstart', hfound', congrArg (c :: ·) hpiece⟩
      · exact .inr ⟨hstart, hfound, congrArg (c :: ·) hpiece⟩
    | true =>
      have hafter : after rules ('\n' :: cs ++ [c]) = after rules (cs ++ [c]) := after_newline rules _
      have hwidth : width ('\n' :: cs ++ [c]) = 1 + width (cs ++ [c]) := rfl
      rw [splitter_of_cut hcut, splitter_of_cut (hsame.trans hcut), hafter, hwidth]
      refine .inr ⟨rfl, ?_, rfl⟩
      rw [statement?_splitter, statement?_splitter]
      dsimp only
      rcases ih with ⟨hstart, hfound, hstart', hfound', hpiece⟩ | ⟨hstart, hfound, hpiece⟩
      · have hraw : (c :: (splitter rules ('\n' :: cs)).piece).reverse =
            '\n' :: (c :: (splitter rules cs).piece).reverse := by
          rw [hpiece]
          simp
        rw [hraw, hstart', hstart, hfound', hfound, ofPiece?_newline, List.append_nil, List.append_nil]
        split
        · rw [Option.toList_map]
        · rfl
      · rw [hstart, hfound, hpiece, ofPiece?_add, List.map_append]
        split
        · rw [Option.toList_map]
        · rfl

/-- A line feed in front only moves the statements. -/
theorem split_newline (rules : LexicalRules) (cs : List Char) :
    split rules ('\n' :: cs) = (split rules cs).map (List.map (moved 1)) := by
  have hafter := after_newline rules cs
  cases hfinished : (after rules cs).unfinished? with
  | some e =>
    rw [split_of_unfinished hfinished, split_of_unfinished (hafter.symm ▸ hfinished)]
    rfl
  | none =>
    rw [split_of_finished hfinished, split_of_finished (hafter.symm ▸ hfinished), hafter,
      statement?_splitter, statement?_splitter]
    refine congrArg Except.ok ?_
    rw [List.map_append]
    rcases splitter_newline rules cs with ⟨hstart, hfound, hstart', hfound', hpiece⟩ |
      ⟨hstart, hfound, hpiece⟩
    · have hraw : (splitter rules ('\n' :: cs)).piece.reverse =
          '\n' :: (splitter rules cs).piece.reverse := by
        rw [hpiece]
        simp
      rw [hraw, hstart', hstart, hfound', hfound, ofPiece?_newline]
      split
      · rw [Option.toList_map]
        rfl
      · rfl
    · rw [hstart, hfound, hpiece, ofPiece?_add, List.map_reverse]
      split
      · rw [Option.toList_map]
      · rfl

end DdlBridge.Statement
