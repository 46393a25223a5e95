import DdlBridge.Proofs.Grammar.Points
import DdlBridge.Proofs.Grammar.Ensures
import DdlBridge.Proofs.Grammar.TypeText

/-!
# What parsers yield

Every word among the tokens of a text is spelled as one (`Lexer.spelled_of_mem_tokensFrom`). A parser
yields what holds of all that it returns wherever its tokens are spelled so (`Parser.Yields`).
-/

namespace DdlBridge

open Text Atom DdlBridge.Grammar

/-! ### Tokens of a text -/

/-- A word token has the characters of a word. -/
def Token.Spelled (t : Token) : Prop := t.kind = .word → DdlBridge.isWord t.text = true

namespace Lexer

variable {rules : LexicalRules}

theorem isWord_of_takeWord? {cs text rest : List Char} (h : takeWord? cs = some (text, rest)) :
    isWord text = true := by
  cases cs with
  | nil => exact absurd h (by simp [takeWord?])
  | cons c cs =>
    rw [takeWord?] at h
    split at h
    case isTrue hfirst =>
      obtain ⟨rfl, -⟩ := Prod.mk.inj (Option.some.inj h)
      rw [isWord, hfirst, Bool.true_and, List.all_eq_true]
      exact fun _ => List.mem_takeWhile_imp
    case isFalse => exact absurd h (by simp)

/-- Only one reader makes words. -/
theorem isWord_takeToken {c : Char} {cs : List Char} (h : (takeToken rules c cs).1 = .word) :
    isWord (takeToken rules c cs).2.1 = true := by
  unfold takeToken at h ⊢
  cases hread : firstOf (c :: cs) (readers rules) with
  | none =>
    rw [hread] at h
    exact absurd h (by simp)
  | some out =>
    obtain ⟨kind, text, rest⟩ := out
    rw [hread] at h
    obtain ⟨take, hmem, htake⟩ := mem_of_firstOf hread
    obtain rfl : kind = .word := h
    have hword : take = takeWord? := by simpa [readers] using hmem
    rw [hword] at htake
    exact isWord_of_takeWord? htake

theorem spelled_of_mem_tokensFrom {n : Nat} {cs : List Char} {t : Token}
    (h : t ∈ tokensFrom rules n cs) : t.Spelled := by
  obtain ⟨-, c, more, rest, -, -, -, -, htaken⟩ := exists_of_mem_tokensFrom h
  intro hkind
  have hword : isWord (takeToken rules c more).2.1 = true := isWord_takeToken (by rw [htaken, hkind])
  rwa [htaken] at hword

end Lexer

theorem Token.kind_of_keyword {t : Token} (h : t.keyword ≠ "") : t.kind = .word := by
  by_contra hkind
  exact h (if_neg hkind)

theorem Token.Spelled.keyword {t : Token} (h : t.Spelled) (hkind : t.kind = .word) :
    isWordText t.keyword = true ∧ upperWord t.keyword = t.keyword := by
  have hkeyword : t.keyword = String.ofList (upper t.text) := if_pos hkind
  rw [hkeyword, isWordText, upperWord, String.toList_ofList, upper_upper, isWord_upper]
  exact ⟨h hkind, rfl⟩

namespace Parser

variable {α β σ : Type} {P : α → Prop} {R : β → Prop}

/-- What the parser returns satisfies `P` wherever all tokens are spelled. -/
def Yields (p : Parser α) (P : α → Prop) : Prop :=
  ∀ src ts a rest, (∀ t ∈ ts, t.Spelled) → p src ts = .ok (a, rest) → P a

theorem Ensures.yields {p : Parser α} (h : Ensures p P) : Yields p P :=
  fun src ts a rest _ ha => h src ts a rest ha

namespace Yields

theorem bind {p : Parser α} {f : α → Parser β} (hp : Yields p P) (hconsumes : Consumes p)
    (hf : ∀ a, P a → Yields (f a) R) : Yields (p >>= f) R := by
  intro src ts b rest hts h
  rw [bind_eq] at h
  split at h
  case h_1 a middle ha =>
    have hmiddle : ∀ t ∈ middle, t.Spelled := fun t ht =>
      hts t ((hconsumes src ts a middle ha).subset ht)
    exact hf a (hp src ts a middle hts ha) src middle b rest hmiddle h
  case h_2 => contradiction

/-- Where the second parser reads does not matter. -/
theorem ensures {p : Parser α} {f : α → Parser β} (hp : Yields p P) (hf : ∀ a, P a → Ensures (f a) R) :
    Yields (p >>= f) R := by
  intro src ts b rest hts h
  rw [bind_eq] at h
  split at h
  case h_1 a middle ha => exact hf a (hp src ts a middle hts ha) src middle b rest h
  case h_2 => contradiction

/-- Nothing is known of the first result. -/
theorem seq {p : Parser α} {f : α → Parser β} (hconsumes : Consumes p) (hf : ∀ a, Yields (f a) R) :
    Yields (p >>= f) R :=
  bind (P := fun _ => True) (Ensures.trivial p).yields hconsumes fun a _ => hf a

theorem ite {c : Prop} [Decidable c] {p q : Parser α} (hp : c → Yields p P) (hq : ¬ c → Yields q P) :
    Yields (if c then p else q) P := by
  split
  case isTrue h => exact hp h
  case isFalse h => exact hq h

/-- What every step keeps holds behind all of them. -/
theorem many {I : σ → Prop} {step : σ → Parser (Option σ)} (hconsumes : ∀ s, Consumes (step s))
    (hstep : ∀ s, I s → Yields (step s) fun next => ∀ s' ∈ next, I s') {s : σ} (hs : I s) :
    Yields (many step s) I := by
  intro src ts
  induction ts using (measure List.length).wf.induction generalizing s with
  | h ts ih =>
    intro a rest hts h
    rw [Parser.many] at h
    split at h
    case h_1 => contradiction
    case h_2 =>
      obtain ⟨rfl, -⟩ := Prod.mk.inj (Except.ok.inj h)
      exact hs
    case h_3 s' middle hnext =>
      have hs' := hstep s hs src ts _ middle hts hnext s' rfl
      have hmiddle : ∀ t ∈ middle, t.Spelled := fun t ht =>
        hts t ((hconsumes s src ts _ middle hnext).subset ht)
      split at h
      case isTrue hlt => exact ih middle hlt hs' a rest hmiddle h
      case isFalse =>
        obtain ⟨rfl, -⟩ := Prod.mk.inj (Except.ok.inj h)
        exact hs'

end Yields

end Parser

end DdlBridge
