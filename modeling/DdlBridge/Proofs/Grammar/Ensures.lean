import DdlBridge.Proofs.Grammar.Parser

/-!
# What parsers ensure

A parser ensures what holds of all that it returns (`Ensures`). Postconditions are passed on step by
step, with one rule for each way parsers are put together.
-/

namespace DdlBridge.Parser

variable {α β σ : Type} {P Q : α → Prop} {R : β → Prop}

/-- What the parser returns satisfies `P`, whatever it reads. -/
def Ensures (p : Parser α) (P : α → Prop) : Prop :=
  ∀ src ts a rest, p src ts = .ok (a, rest) → P a

namespace Ensures

theorem trivial (p : Parser α) : Ensures p fun _ => True := fun _ _ _ _ _ => True.intro

theorem pure {a : α} (h : P a) : Ensures (pure a) P := by
  rintro src ts _ _ ⟨⟩
  exact h

theorem fail (problem : Problem) : Ensures (fail problem) P :=
  fun _ _ _ _ h => absurd h (by simp [Parser.fail])

theorem bind {p : Parser α} {f : α → Parser β} (hp : Ensures p P) (hf : ∀ a, P a → Ensures (f a) R) :
    Ensures (p >>= f) R := by
  intro src ts b rest h
  rw [bind_eq] at h
  split at h
  case h_1 a middle ha => exact hf a (hp src ts a middle ha) src middle b rest h
  case h_2 => contradiction

/-- Nothing is known of the first result. -/
theorem seq {p : Parser α} {f : α → Parser β} (hf : ∀ a, Ensures (f a) R) : Ensures (p >>= f) R :=
  (trivial p).bind fun a _ => hf a

theorem ite {c : Prop} [Decidable c] {p q : Parser α} (hp : c → Ensures p P) (hq : ¬ c → Ensures q P) :
    Ensures (if c then p else q) P := by
  split
  case isTrue h => exact hp h
  case isFalse h => exact hq h

theorem map {p : Parser α} {f : α → β} (hp : Ensures p fun a => R (f a)) : Ensures (f <$> p) R :=
  hp.bind fun _ h => .pure h

theorem imp {p : Parser α} (hp : Ensures p P) (h : ∀ a, P a → Q a) : Ensures p Q :=
  fun src ts a rest ha => h a (hp src ts a rest ha)

/-- What every step keeps holds behind all of them. -/
theorem many {I : σ → Prop} {step : σ → Parser (Option σ)} {s : σ} (hs : I s)
    (hstep : ∀ s, I s → Ensures (step s) fun next => ∀ s' ∈ next, I s') :
    Ensures (many step s) I := by
  intro src ts
  induction ts using (measure List.length).wf.induction generalizing s with
  | h ts ih =>
    intro a rest h
    rw [Parser.many] at h
    split at h
    case h_1 => contradiction
    case h_2 => obtain ⟨rfl, rfl⟩ := Prod.mk.inj (Except.ok.inj h); exact hs
    case h_3 s' middle hnext =>
      have hs' := hstep s hs src ts _ middle hnext s' rfl
      split at h
      case isTrue hlt => exact ih middle hlt hs' a rest h
      case isFalse => obtain ⟨rfl, rfl⟩ := Prod.mk.inj (Except.ok.inj h); exact hs'

end Ensures

/-! ### Small parsers -/

theorem ensures_eatAny (words : List String) :
    Ensures (eatAny words) fun found => ∀ w ∈ found, w ∈ words := by
  intro src ts found rest h
  unfold eatAny at h
  split at h
  case h_1 t ts =>
    split at h
    case isTrue hmem =>
      obtain ⟨rfl, -⟩ := Prod.mk.inj (Except.ok.inj h)
      rintro w ⟨⟩
      exact hmem
    case isFalse =>
      obtain ⟨rfl, -⟩ := Prod.mk.inj (Except.ok.inj h)
      simp
  case h_2 =>
    obtain ⟨rfl, -⟩ := Prod.mk.inj (Except.ok.inj h)
    simp

theorem ensures_columnList : Ensures columnList fun names => names ≠ [] := by
  refine .seq fun _ => .seq fun first => .bind (P := fun names => names ≠ []) ?_ fun names hnames =>
    .seq fun _ => .pure hnames
  refine .many (by simp) fun names _ => .seq fun _ => .ite (fun _ => .seq fun name => ?_) fun _ => ?_
  · exact .pure (by simp)
  · exact .pure (by simp)

end DdlBridge.Parser
