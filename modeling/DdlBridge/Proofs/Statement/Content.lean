import DdlBridge.Proofs.Statement.Reading

/-!
# Statements have content

A scanner that reports a statement end has met more than white space and comments since the one
before (`Backed.step`). A `;` is content by itself. A line that reads `/` or `GO` is content too, but
the line outlives the statement: what matters is that a `;` behind which the flag was taken back is
still on its line.
-/

namespace DdlBridge.Scanner

/-- Nothing on the line, or a `;`. Such a line ends no statement by itself. -/
def Spent (line : List Char) : Prop := line = [] ∨ ';' ∈ line

/-- Without content, what the line holds was read with an earlier statement. The `-` or `/` that may
open a comment does not count yet. -/
def Backed (s : Scanner) : Prop :=
  s.content = false →
    match s.region with
    | .dash | .slash => Spent s.line.tail
    | .dollarTag _ => False
    | _ => Spent s.line

variable {s : Scanner}

theorem backed_fresh (rules : LexicalRules) : (fresh rules).Backed := fun _ => .inl rfl

theorem Backed.of_content (h : s.content = true) : s.Backed := fun hnot => by
  rw [h] at hnot
  exact absurd hnot (by simp)

/-- The scanner is neither at what may open a comment nor in the tag of a dollar quote. -/
def Decided (region : Region) : Prop :=
  region ≠ .dash ∧ region ≠ .slash ∧ ∀ tag, region ≠ .dollarTag tag

theorem Backed.of_spent (h : Spent s.line) (hregion : Decided s.region) : s.Backed := by
  intro _
  split
  case h_1 hr => exact absurd hr hregion.1
  case h_2 hr => exact absurd hr hregion.2.1
  case h_3 tag hr => exact absurd hr (hregion.2.2 tag)
  case h_4 => exact h

theorem Backed.of_normal (h : s.content = false → Spent s.line) (hregion : s.region = .normal) :
    s.Backed := fun hcontent => by
  rw [hregion]
  exact h hcontent

theorem not_isTerminatorLine_of_spent (h : Spent s.line) : s.isTerminatorLine = false := by
  have hslash : s.line ≠ ['/'] := by
    intro hline
    rw [hline] at h
    rcases h with h | h <;> exact absurd h (by decide)
  have hgo : Text.upper s.line.reverse ≠ ['G', 'O'] := by
    intro hline
    rcases h with h | h
    · rw [h] at hline
      exact absurd hline (by decide)
    · have hmem : (';' : Char).toUpper ∈ Text.upper s.line.reverse :=
        List.mem_map_of_mem (List.mem_reverse.2 h)
      rw [hline] at hmem
      exact absurd hmem (by decide)
  simp [isTerminatorLine, hslash, hgo]

/-- What a step has to keep: the scanner stays backed, and a statement that it ends had content. -/
def KeepsBacked (r : Scanner × Bool) : Prop :=
  r.1.Backed ∧ (r.2 = true → r.1.lastContent = true)

theorem KeepsBacked.of_uncut (h : s.Backed) : KeepsBacked (s, false) :=
  ⟨h, fun hcut => absurd hcut (by simp)⟩

theorem keepsBacked_endLine (h : s.content = false → Spent s.line) (hregion : s.region = .normal) :
    KeepsBacked s.endLine := by
  unfold endLine
  split
  case isTrue hline =>
    refine ⟨.of_normal (fun _ => .inl rfl) hregion, fun _ => ?_⟩
    cases hcontent : s.content with
    | true => exact hcontent
    | false =>
      rw [not_isTerminatorLine_of_spent (h hcontent)] at hline
      exact absurd hline (by simp)
  case isFalse => exact .of_uncut (.of_normal (fun _ => .inl rfl) hregion)

theorem keepsBacked_semicolon (hregion : s.region = .normal) :
    KeepsBacked (s.takePunct ';').terminator := by
  unfold terminator
  split
  case isTrue => exact .of_uncut (.of_content rfl)
  case isFalse =>
    exact ⟨.of_normal (fun _ => .inr List.mem_cons_self) hregion, fun _ => rfl⟩

theorem keepsBacked_stepSymbol (h : s.content = false → Spent s.line) (hregion : s.region = .normal)
    (c : Char) : KeepsBacked (s.stepSymbol c) := by
  have hsame : s.Backed := .of_normal h hregion
  unfold stepSymbol
  split
  case h_1 => exact keepsBacked_endLine h hregion
  case h_6 => exact keepsBacked_semicolon hregion
  case h_7 => exact .of_uncut h
  case h_8 => exact .of_uncut h
  case h_11 => split <;> exact .of_uncut (.of_content rfl)
  case h_12 => split <;> exact .of_uncut (.of_content rfl)
  case h_13 =>
    split
    · exact .of_uncut h
    · exact .of_uncut (.of_content rfl)
  case h_14 => split <;> exact .of_uncut (.of_content rfl)
  all_goals first | exact .of_uncut hsame | exact .of_uncut (.of_content rfl)

theorem keepsBacked_stepNormal (h : s.content = false → Spent s.line) (hregion : s.region = .normal)
    (c : Char) : KeepsBacked (s.stepNormal c) := by
  unfold stepNormal
  split
  case isTrue => exact .of_uncut (.of_content rfl)
  case isFalse =>
    refine keepsBacked_stepSymbol ?_ ((region_endWord s).trans hregion) c
    rwa [content_endWord, line_endWord]

theorem KeepsBacked.of_spent (hline : Spent s.line) (hregion : Decided s.region) :
    KeepsBacked (s, false) := .of_uncut (.of_spent hline hregion)

/-- Inside a region a line end starts another line and nothing else touches it. -/
theorem KeepsBacked.of_inside {t u : Scanner} {c : Char} (hempty : t.line = [])
    (hregion : Decided t.region) (hkept : Spent u.line) (hregion' : Decided u.region) :
    KeepsBacked (if c = '\n' then (t, false) else (u, false)) := by
  split
  · exact .of_spent (.inl hempty) hregion
  · exact .of_spent hkept hregion'

/-- Where the line is spent already, no step puts anything on it without content. -/
theorem keepsBacked_of_spent (hline : Spent s.line) (hregion : Decided s.region) (c : Char) :
    KeepsBacked (s.step c) := by
  cases hr : s.region with
  | dash => exact absurd hr hregion.1
  | slash => exact absurd hr hregion.2.1
  | dollarTag tag => exact absurd hr (hregion.2.2 tag)
  | normal =>
    simp only [Scanner.step, hr]
    exact keepsBacked_stepNormal (fun _ => hline) hr c
  | lineComment =>
    simp only [Scanner.step, hr]
    split
    · exact keepsBacked_endLine (fun _ => hline) rfl
    · exact .of_spent hline hregion
  | blockComment =>
    simp only [Scanner.step, hr]
    split
    · exact .of_spent hline (by simp [Decided])
    · exact .of_inside rfl hregion hline hregion
  | blockCommentStar =>
    simp only [Scanner.step, hr]
    split
    · exact .of_spent hline (by simp [Decided])
    split
    · exact .of_spent hline hregion
    · exact .of_inside rfl (by simp [Decided]) hline (by simp [Decided])
  | quote closing =>
    simp only [Scanner.step, hr]
    split
    · exact .of_spent hline (by simp [Decided])
    split
    · exact .of_spent hline (by simp [Decided])
    · exact .of_inside rfl hregion hline hregion
  | quoteEnd closing =>
    simp only [Scanner.step, hr]
    split
    · exact .of_spent hline (by simp [Decided])
    · exact keepsBacked_stepNormal (s := { s with region := .normal }) (fun _ => hline) rfl c
  | escape closing =>
    simp only [Scanner.step, hr]
    exact .of_spent hline (by simp [Decided])
  | dollar tag found =>
    simp only [Scanner.step, hr, stepDollar]
    split
    · exact .of_spent hline (by simp [Decided])
    split
    · exact .of_spent (.inl rfl) (by simp [Decided, resetLine])
    · exact .of_spent hline (by simp [Decided])

theorem Backed.step (h : s.Backed) (c : Char) : KeepsBacked (s.step c) := by
  cases hcontent : s.content with
  | true =>
    cases step_cases s c with
    | outside content previous hkeeps hstep =>
      rw [hstep]
      refine keepsBacked_stepNormal (fun hnot => ?_) rfl c
      rw [hkeeps hcontent] at hnot
      exact absurd hnot (by simp)
    | lineComment hregion hc hstep =>
      rw [hstep]
      exact keepsBacked_endLine (fun hnot => by simp [hcontent] at hnot) rfl
    | inside region line lineQuoted hregion hdash hslash hquotes hescape hstep =>
      rw [hstep]
      exact .of_uncut (.of_content hcontent)
  | false =>
    have hline := h hcontent
    split at hline
    case h_1 hr =>
      simp only [Scanner.step, hr]
      split
      · exact .of_uncut fun _ => hline
      · exact keepsBacked_stepNormal (fun hnot => absurd hnot (by simp)) rfl c
    case h_2 hr =>
      simp only [Scanner.step, hr]
      split
      · exact .of_uncut fun _ => hline
      · exact keepsBacked_stepNormal (fun hnot => absurd hnot (by simp)) rfl c
    case h_3 => exact hline.elim
    case h_4 hdash hslash htag => exact keepsBacked_of_spent hline ⟨hdash, hslash, htag⟩ c

/-! ### Scans -/

/-- Whatever the bytes, every statement that a scan ends had content. -/
theorem content_of_scan (rules : LexicalRules) (bytes : List UInt8) :
    (scan rules bytes).scanner.Backed ∧ ∀ b ∈ (scan rules bytes).boundaries, b.content = true := by
  induction bytes using List.reverseRecOn with
  | nil => exact ⟨backed_fresh rules, fun b hb => absurd hb List.not_mem_nil⟩
  | append_singleton bytes byte ih =>
    obtain ⟨hbacked, hcontent⟩ := ih
    obtain ⟨hnext, hlast⟩ := hbacked.step (Char.ofNat byte.toNat)
    rw [Statement.scan_concat]
    refine ⟨hnext, fun b hb => ?_⟩
    rw [Statement.boundaries_step] at hb
    rcases List.mem_append.1 hb with hb | hb
    · obtain ⟨hcut, hb⟩ := List.mem_ite_nil_right.1 hb
      rw [List.mem_singleton.1 hb]
      exact hlast hcut
    · exact hcontent b hb

end DdlBridge.Scanner
