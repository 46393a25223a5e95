import DdlBridge.Grammar.Script
import DdlBridge.Proofs.Grammar.Parser
import DdlBridge.Proofs.Token.Junction

/-!
# Parsers consume tokens from the front

What a parser leaves is the end of what it was given, so what holds of all tokens of a statement holds
wherever its parsers have got to. Here are the parsers that go through the tokens by hand.
-/

namespace DdlBridge.Parser

variable {α β σ : Type}

/-- What the parser leaves is the end of what it was given. -/
def Consumes (p : Parser α) : Prop := ∀ src ts a rest, p src ts = .ok (a, rest) → rest <:+ ts

namespace Consumes

theorem pure (a : α) : Consumes (pure a) := by
  rintro src ts _ _ ⟨⟩
  exact List.suffix_rfl

theorem fail (problem : Problem) : Consumes (α := α) (fail problem) :=
  fun _ _ _ _ h => absurd h (by simp [Parser.fail])

theorem bind {p : Parser α} {f : α → Parser β} (hp : Consumes p) (hf : ∀ a, Consumes (f a)) :
    Consumes (p >>= f) := by
  intro src ts b rest h
  rw [bind_eq] at h
  split at h
  case h_1 a middle ha => exact (hf a src middle b rest h).trans (hp src ts a middle ha)
  case h_2 => contradiction

theorem ite {c : Prop} [Decidable c] {p q : Parser α} (hp : Consumes p) (hq : Consumes q) :
    Consumes (if c then p else q) := by
  split
  · exact hp
  · exact hq

theorem map {p : Parser α} (f : α → β) (hp : Consumes p) : Consumes (f <$> p) :=
  hp.bind fun a => .pure (f a)

theorem discard {p : Parser α} (hp : Consumes p) : Consumes (discard p) := hp.bind fun _ => .pure _

theorem many {step : σ → Parser (Option σ)} (hstep : ∀ s, Consumes (step s)) (s : σ) :
    Consumes (many step s) := by
  intro src ts
  induction ts using (measure List.length).wf.induction generalizing s with
  | h ts ih =>
    intro a rest h
    rw [Parser.many] at h
    split at h
    case h_1 => contradiction
    case h_2 middle hnext =>
      obtain ⟨-, rfl⟩ := Prod.mk.inj (Except.ok.inj h)
      exact hstep s src ts _ middle hnext
    case h_3 s' middle hnext =>
      have hmiddle := hstep s src ts _ middle hnext
      split at h
      case isTrue hlt => exact (ih middle hlt s' a rest h).trans hmiddle
      case isFalse =>
        obtain ⟨-, rfl⟩ := Prod.mk.inj (Except.ok.inj h)
        exact hmiddle

end Consumes

/-- The parser reads a token where there is one. -/
def Shortens (p : Parser α) : Prop := ∀ src ts a rest, p src ts = .ok (a, rest) → rest <:+ ts.tail

theorem Shortens.bind {p : Parser α} {f : α → Parser β} (hp : Shortens p) (hf : ∀ a, Consumes (f a)) :
    Shortens (p >>= f) := by
  intro src ts b rest h
  rw [bind_eq] at h
  split at h
  case h_1 a middle ha => exact (hf a src middle b rest h).trans (hp src ts a middle ha)
  case h_2 => contradiction

/-- The parser reads a token, or declines and reads nothing. -/
def Progresses (p : Parser (Option α)) : Prop := ∀ src ts next rest, p src ts = .ok (next, rest) →
  next = none ∧ rest = ts ∨ ∃ t more, ts = t :: more ∧ rest <:+ more

/-! ### Small parsers -/

/-- A parser that only looks leaves all there is. -/
theorem consumes_of_eq {p : Parser α} (f : Source → List Token → α)
    (h : ∀ src ts, p src ts = .ok (f src ts, ts)) : Consumes p := by
  intro src ts a rest ha
  obtain ⟨-, rfl⟩ := Prod.mk.inj (Except.ok.inj ((h src ts).symm.trans ha))
  exact List.suffix_rfl

theorem consumes_source : Consumes source := consumes_of_eq (fun src _ => src) fun _ _ => rfl

theorem consumes_tokens : Consumes tokens := consumes_of_eq (fun _ ts => ts) fun _ _ => rfl

theorem consumes_peek : Consumes peek := consumes_of_eq (fun _ ts => ts.head?) fun _ _ => rfl

theorem consumes_peekAt (n : Nat) : Consumes (peekAt n) :=
  consumes_of_eq (fun _ ts => ts[n]?) fun _ _ => rfl

theorem consumes_peekKeyword : Consumes peekKeyword := consumes_of_eq (fun _ _ => _) fun _ _ => rfl

theorem consumes_peekIsPunct (c : Char) : Consumes (peekIsPunct c) :=
  consumes_of_eq (fun _ _ => _) fun _ _ => rfl

theorem shortens_advance : Shortens advance := by
  rintro src ts _ _ ⟨⟩
  exact List.suffix_rfl

theorem consumes_advance : Consumes advance := by
  rintro src ts _ _ ⟨⟩
  exact List.tail_suffix ts

theorem consumes_eatWords (words : List String) : Consumes (eatWords words) := by
  intro src ts a rest h
  unfold eatWords at h
  split at h
  all_goals obtain ⟨-, rfl⟩ := Prod.mk.inj (Except.ok.inj h)
  · exact List.drop_suffix _ ts
  · exact List.suffix_rfl

theorem shortens_expectWords (word : String) (words : List String) :
    Shortens (expectWords (word :: words)) := by
  intro src ts a rest h
  rw [expectWords, bind_eq, eatWords] at h
  split at h
  case h_1 a middle ha =>
    split at ha
    all_goals obtain ⟨rfl, rfl⟩ := Prod.mk.inj (Except.ok.inj ha)
    · obtain ⟨-, rfl⟩ := Prod.mk.inj (Except.ok.inj h)
      rw [List.length_cons, ← List.drop_tail]
      exact List.drop_suffix _ _
    · contradiction
  case h_2 => contradiction

theorem consumes_eatAny (words : List String) : Consumes (eatAny words) := by
  intro src ts a rest h
  unfold eatAny at h
  split at h
  case h_1 t ts =>
    split at h
    all_goals obtain ⟨-, rfl⟩ := Prod.mk.inj (Except.ok.inj h)
    · exact List.suffix_cons t _
    · exact List.suffix_rfl
  case h_2 =>
    obtain ⟨-, rfl⟩ := Prod.mk.inj (Except.ok.inj h)
    exact List.suffix_rfl

theorem consumes_eatPunct (c : Char) : Consumes (eatPunct c) := by
  intro src ts a rest h
  unfold eatPunct at h
  split at h
  case h_1 t ts =>
    split at h
    all_goals obtain ⟨-, rfl⟩ := Prod.mk.inj (Except.ok.inj h)
    · exact List.suffix_cons t _
    · exact List.suffix_rfl
  case h_2 =>
    obtain ⟨-, rfl⟩ := Prod.mk.inj (Except.ok.inj h)
    exact List.suffix_rfl

theorem consumes_ident : Consumes ident := by
  intro src ts a rest h
  unfold ident at h
  split at h
  case h_1 t ts =>
    split at h
    · obtain ⟨-, rfl⟩ := Prod.mk.inj (Except.ok.inj h)
      exact List.suffix_cons t _
    · contradiction
  case h_2 => contradiction

theorem suffix_of_closing? {k : Nat} {ts rest : List Token} {t : Token}
    (h : closing? k ts = some (t, rest)) : rest <:+ ts := by
  obtain ⟨front, rfl, -⟩ := exists_of_closing? h
  exact ⟨front ++ [t], by simp⟩

theorem consumes_parenthesized : Consumes parenthesized := by
  intro src ts a rest h
  unfold parenthesized at h
  split at h
  case h_1 t ts =>
    split at h
    · split at h
      case h_1 close rest' hclosing =>
        obtain ⟨-, rfl⟩ := Prod.mk.inj (Except.ok.inj h)
        exact (suffix_of_closing? hclosing).trans (List.suffix_cons t ts)
      case h_2 => contradiction
    · contradiction
  case h_2 => contradiction

theorem elementRest_suffix (depth : Nat) (ts : List Token) : elementRest depth ts <:+ ts := by
  induction ts generalizing depth with
  | nil => exact List.suffix_rfl
  | cons t ts ih =>
    unfold elementRest
    split
    · exact List.suffix_rfl
    · exact (ih _).trans (List.suffix_cons t ts)

theorem consumes_skipElement : Consumes skipElement := by
  rintro src ts _ _ ⟨⟩
  exact elementRest_suffix 0 ts

theorem takeDefault_suffix (depth : Nat) (first : Bool) (ts : List Token) :
    (takeDefault depth first ts).2 <:+ ts := by
  induction ts generalizing depth first with
  | nil => exact List.suffix_rfl
  | cons t ts ih =>
    unfold takeDefault
    split
    · exact List.suffix_rfl
    · exact (ih _ _).trans (List.suffix_cons t ts)

theorem consumes_defaultExpression : Consumes defaultExpression := by
  intro src ts a rest h
  have htaken := takeDefault_suffix 0 true ts
  unfold defaultExpression at h
  split at h
  case h_1 t taken rest' heq =>
    obtain ⟨-, rfl⟩ := Prod.mk.inj (Except.ok.inj h)
    rwa [heq] at htaken
  case h_2 => contradiction

theorem consumes_remainder : Consumes remainder := by
  intro src ts a rest h
  unfold remainder at h
  split at h
  all_goals
    obtain ⟨-, rfl⟩ := Prod.mk.inj (Except.ok.inj h)
    exact List.nil_suffix

end DdlBridge.Parser

namespace DdlBridge.Grammar

open DdlBridge.Parser

theorem behindAs?_suffix {ts rest : List Token} (h : behindAs? ts = some rest) : rest <:+ ts := by
  induction ts with
  | nil => exact absurd h (by simp [behindAs?])
  | cons t ts ih =>
    rw [behindAs?] at h
    split at h
    · obtain rfl := Option.some.inj h
      exact List.suffix_cons t _
    · exact (ih h).trans (List.suffix_cons t ts)

theorem consumes_skipToAs (view : String) : Consumes (skipToAs view) := by
  intro src ts a rest h
  unfold skipToAs at h
  split at h
  case h_1 hbehind =>
    obtain ⟨-, rfl⟩ := Prod.mk.inj (Except.ok.inj h)
    exact behindAs?_suffix hbehind
  case h_2 => contradiction

theorem suffix_of_createHead {found : CreateHead × Option Object × List Token} {head : CreateHead}
    {ts : List Token} (h : createHead head ts = some found) : found.2.2 <:+ ts := by
  induction ts generalizing head with
  | nil => exact absurd h (by simp [createHead])
  | cons t ts ih =>
    have hnext : ∀ head, createHead head ts = some found → found.2.2 <:+ t :: ts := fun head h =>
      (ih h).trans (List.suffix_cons t ts)
    unfold createHead at h
    dsimp only at h
    split at h
    case h_1 =>
      obtain rfl := Option.some.inj h
      exact List.suffix_rfl
    case h_2 =>
      split at h
      · exact hnext _ h
      · split at h
        · exact hnext _ h
        · split at h
          · exact hnext _ h
          · obtain rfl := Option.some.inj h
            exact List.suffix_rfl

theorem consumes_objectHead : Consumes objectHead := by
  intro src ts a rest h
  unfold objectHead at h
  split at h
  case h_1 hfound =>
    obtain ⟨-, rfl⟩ := Prod.mk.inj (Except.ok.inj h)
    exact suffix_of_createHead hfound
  case h_2 => contradiction

end DdlBridge.Grammar
