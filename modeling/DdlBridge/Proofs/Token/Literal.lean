import DdlBridge.Proofs.Token.Atom

/-!
# Literals

A text that is one string or number to the lexer is one atom (`isLiteral_iff`).
-/

namespace DdlBridge

open Text Lexer Statement

namespace Atom

variable {rules : LexicalRules}

/-- The text is a single token, a string or a number. -/
def IsLiteral (rules : LexicalRules) (cs : List Char) : Prop :=
  ∃ t, tokensFrom rules 0 cs = [t] ∧ t.text = cs ∧ (t.kind = .string ∨ t.kind = .number)

/-- What the lexer takes up to a closing quote is enclosed. -/
theorem enclosed_of_taken {quote : Char} {escapes : Bool} (hescapes : escapes = escapesIn rules quote)
    (hquote : '\\' ≠ quote) {cs text rest : List Char}
    (h : takeQuoted? quote escapes cs = some (text, rest)) :
    ∃ body, text = body ++ [quote] ∧ Enclosed rules quote body := by
  subst hescapes
  have hreads := readsUpTo_takeQuoted rules hquote.symm cs
  rw [h] at hreads
  obtain ⟨body, htext, hbody, -⟩ := hreads
  exact ⟨body, htext, hbody⟩

theorem exists_atom_of_takeNumber? {cs text rest : List Char}
    (h : takeNumber? cs = some (text, rest)) : ∃ a : Atom, a.text = text ∧ a.Formed rules ∧
      a.kind? = some .number := by
  have hdigits : ∀ cs : List Char, ∀ c ∈ cs.takeWhile Char.isDigit, c.isDigit = true :=
    fun cs c hc => List.mem_takeWhile_imp hc
  unfold takeNumber? at h
  dsimp only at h
  split at h
  case isTrue => exact absurd h (by simp)
  case isFalse hne =>
    obtain ⟨c, whole, hwhole⟩ := List.exists_cons_of_ne_nil
      (fun hnil => hne (List.isEmpty_iff.2 hnil))
    have hfirst := hdigits cs
    rw [hwhole] at h hfirst
    split at h
    case h_1 more _ =>
      obtain ⟨rfl, -⟩ := Prod.mk.inj (Option.some.inj h)
      refine ⟨number (c :: whole) (some (more.takeWhile Char.isDigit)), rfl, .number hfirst ?_, rfl⟩
      rintro ds hds
      obtain rfl := Option.some.inj hds
      exact hdigits more
    case h_2 =>
      obtain ⟨rfl, -⟩ := Prod.mk.inj (Option.some.inj h)
      exact ⟨number (c :: whole) none, List.append_nil _, .number hfirst (by simp), rfl⟩

theorem exists_atom_of_takeDelimited? {cs text rest : List Char}
    (h : takeDelimited? '\x27' '\x27' rules.backslashEscapes cs = some (text, rest)) :
    ∃ a : Atom, a.text = text ∧ a.Formed rules ∧ a.kind? = some .string := by
  cases cs with
  | nil => exact absurd h (by simp [takeDelimited?])
  | cons c cs =>
    rw [takeDelimited?] at h
    split at h
    case isFalse => exact absurd h (by simp)
    case isTrue hc =>
      obtain ⟨inner, hinner, rfl⟩ := Taken.behind_eq_some_iff.1 h
      have hescapes : rules.backslashEscapes = escapesIn rules '\x27' := by simp [escapesIn]
      obtain ⟨body, rfl, henclosed⟩ := enclosed_of_taken hescapes (by decide) hinner
      subst hc
      exact ⟨quoted '\x27' body, rfl, .quoted rfl henclosed fun heq => absurd heq (by decide), rfl⟩

theorem exists_atom_of_takeToken {c : Char} {cs text rest : List Char} {kind : TokenKind}
    (hkind : kind = .string ∨ kind = .number) (h : takeToken rules c cs = (kind, text, rest)) :
    ∃ a : Atom, a.text = text ∧ a.Formed rules ∧ a.kind? = some kind := by
  have hfirst : firstOf (c :: cs) (readers rules) = some (kind, text, rest) := by
    unfold takeToken at h
    cases hfound : firstOf (c :: cs) (readers rules) with
    | some taken =>
      rw [hfound] at h
      exact congrArg some h
    | none =>
      rw [hfound] at h
      obtain ⟨rfl, -⟩ := Prod.mk.inj h
      exact absurd hkind (by simp)
  obtain ⟨take, hmem, htake⟩ := mem_of_firstOf hfirst
  simp only [readers, List.mem_append, List.mem_cons, List.not_mem_nil, or_false, Prod.mk.injEq,
    List.mem_ite_nil_right] at hmem
  -- only two of the readers read a string or a number
  rcases hmem with ((⟨-, rfl, -⟩ | ⟨-, rfl, -⟩) | ⟨-, rfl, -⟩) |
    ⟨rfl, rfl⟩ | ⟨rfl, -⟩ | ⟨rfl, rfl⟩ | ⟨rfl, -⟩
  case inr.inl => exact exists_atom_of_takeDelimited? htake
  case inr.inr.inr.inl => exact exists_atom_of_takeNumber? htake
  all_goals exact absurd hkind (by simp)

theorem length_le_of_mem_tokensFrom {n : Nat} {cs : List Char} {t : Token}
    (h : t ∈ tokensFrom rules n cs) : t.text.length ≤ cs.length := by
  rw [tokensFrom_eq_filterMap] at h
  obtain ⟨segment, hmem, hsegment⟩ := List.mem_filterMap.1 h
  obtain ⟨front, rest, hsplit⟩ := List.append_of_mem hmem
  have htext : t.text = segment.text := by
    unfold Segment.token? at hsegment
    split at hsegment
    · obtain rfl := Option.some.inj hsegment
      rfl
    · exact absurd hsegment (by simp)
  have hall := congrArg List.length (flatMap_text_segmentsFrom rules n cs)
  rw [hsplit, List.flatMap_append, List.flatMap_cons, List.length_append, List.length_append] at hall
  rw [htext]
  omega

theorem exists_atom_of_literal {cs : List Char} (h : IsLiteral rules cs) :
    ∃ a : Atom, a.text = cs ∧ a.Formed rules ∧ (a.kind? = some .string ∨ a.kind? = some .number) := by
  obtain ⟨t, htokens, htext, hkind⟩ := h
  cases cs with
  | nil =>
    rw [tokensFrom_nil] at htokens
    exact absurd htokens (by simp)
  | cons c cs =>
    have hlt := length_takeSegment_lt rules c cs
    rw [tokensFrom_cons] at htokens
    generalize hsegment : takeSegment rules c cs = taken at htokens hlt
    obtain ⟨segment, text, rest⟩ := taken
    have hlonger : t ∉ tokensFrom rules (0 + width text) rest := by
      intro hmem
      have hle := length_le_of_mem_tokensFrom hmem
      rw [htext, List.length_cons] at hle
      exact absurd (Nat.lt_of_le_of_lt hle hlt) (Nat.lt_irrefl _)
    cases segment with
    | blank | comment =>
      have hall : tokensFrom rules (0 + width text) rest = [t] := htokens
      exact absurd (hall ▸ List.mem_cons_self) hlonger
    | token kind =>
      obtain ⟨rfl, -⟩ := List.cons.inj htokens
      have htoken : takeToken rules c cs = (kind, text, rest) := by
        unfold takeSegment at hsegment
        split at hsegment
        case isTrue => exact absurd (Prod.mk.inj hsegment).1 (by simp)
        case isFalse =>
          split at hsegment
          case h_1 => exact absurd (Prod.mk.inj hsegment).1 (by simp)
          case h_2 =>
            obtain ⟨hkind, hrest⟩ := Prod.mk.inj hsegment
            rw [← hrest, ← SegmentKind.token.inj hkind]
      obtain ⟨a, ha, hformed, hkind'⟩ := exists_atom_of_takeToken hkind htoken
      refine ⟨a, ha.trans htext, hformed, ?_⟩
      rw [hkind']
      exact hkind.imp (congrArg some) (congrArg some)

theorem isLiteral_iff {cs : List Char} : IsLiteral rules cs ↔
    ∃ a : Atom, a.text = cs ∧ a.Formed rules ∧ (a.kind? = some .string ∨ a.kind? = some .number) := by
  refine ⟨exists_atom_of_literal, ?_⟩
  rintro ⟨a, rfl, ha, hkind⟩
  have hapart : Apart rules [a] := .cons ha (by simp [textOf]) .nil
  have htokens := hapart.tokensFrom 0
  rw [textOf_singleton] at htokens
  rcases hkind with hkind | hkind
  · exact ⟨⟨.string, a.text, 0⟩, htokens.trans (place_of_kind hkind 0 []), rfl, .inl rfl⟩
  · exact ⟨⟨.number, a.text, 0⟩, htokens.trans (place_of_kind hkind 0 []), rfl, .inr rfl⟩

end Atom

end DdlBridge
