import DdlBridge.Proofs.Grammar.Consumes

/-!
# Parsers leave a part or complain about one

A parser leaves the end of the tokens it was given, or it points at what is wrong in them. Both are
kept by every way in which parsers are put together, so one walk through the grammar gives both.
-/

namespace DdlBridge

open DdlBridge.Grammar

/-- What a complaint about a statement with these tokens points at. -/
inductive Complaint.Pointed (all : List Token) : Complaint → Prop where
  /-- A token, which the message quotes. -/
  | token {problem : Problem} {t : Token} (hquotes : problem.quotesToken = true) (ht : t ∈ all) :
      Pointed all ⟨problem, some t⟩
  /-- The end of the statement, as the message says. -/
  | ending {problem : Problem} (hquotes : problem.quotesToken = true) : Pointed all ⟨problem, none⟩
  /-- A parenthesis that is not closed behind it. -/
  | unbalanced {front rest : List Token} {t : Token} (hall : all = front ++ t :: rest)
      (hopens : t.isPunct '(' = true) (hcloses : Parser.closing? 0 rest = none) :
      Pointed all ⟨.unbalanced, some t⟩
  /-- The name of a column, which a name before it is but for the case of letters. -/
  | duplicate {front middle rest : List Token} {u t : Token} {first column table : String}
      (hall : all = front ++ u :: (middle ++ t :: rest)) (hu : u.ident? = some first)
      (ht : t.ident? = some column) (hsame : Text.sameName first column = true) :
      Pointed all ⟨.duplicateColumn column table, some t⟩

namespace Parser

variable {α β σ : Type} {all ts : List Token}

/-- What is read satisfies `Q` together with the tokens behind it, or the complaint points at what is
wrong. -/
def Settles (all : List Token) (Q : α → List Token → Prop) : Except Complaint (α × List Token) → Prop
  | .ok (a, rest) => Q a rest
  | .error e => e.Pointed all

theorem Settles.imp {Q R : α → List Token → Prop} {out : Except Complaint (α × List Token)}
    (h : Settles all Q out) (himp : ∀ a rest, Q a rest → R a rest) : Settles all R out := by
  cases out with
  | ok out => exact himp out.1 out.2 h
  | error e => exact h

theorem Settles.bind {p : Parser α} {f : α → Parser β} {src : Source} {Q : α → List Token → Prop}
    {R : β → List Token → Prop} (hp : Settles all Q (p src ts))
    (hf : ∀ a rest, Q a rest → Settles all R (f a src rest)) : Settles all R ((p >>= f) src ts) := by
  rw [bind_eq]
  cases h : p src ts with
  | ok out =>
    rw [h] at hp
    exact hf out.1 out.2 hp
  | error e =>
    rw [h] at hp
    exact hp

theorem Settles.ite {c : Prop} [Decidable c] {p q : Parser α} {src : Source}
    {Q : α → List Token → Prop} (hp : c → Settles all Q (p src ts))
    (hq : ¬ c → Settles all Q (q src ts)) : Settles all Q ((if c then p else q) src ts) := by
  split
  case isTrue h => exact hp h
  case isFalse h => exact hq h

/-- The parser leaves the end of the tokens it was given, or points at what is wrong in them. -/
def Points (all : List Token) (p : Parser α) : Prop :=
  ∀ src ts, ts <:+ all → Settles all (fun _ rest => rest <:+ ts) (p src ts)

/-- The parser with what it reads. -/
theorem Points.settles {p : Parser α} (hp : Points all p) {src : Source} (hts : ts <:+ all) :
    Settles all (fun a rest => p src ts = .ok (a, rest) ∧ rest <:+ ts) (p src ts) := by
  have hpoints := hp src ts hts
  cases h : p src ts with
  | ok out =>
    rw [h] at hpoints
    exact ⟨rfl, hpoints⟩
  | error e =>
    rw [h] at hpoints
    exact hpoints

theorem Points.pointed {p : Parser α} (hp : Points all p) (hts : ts <:+ all) {src : Source}
    {e : Complaint} (h : p src ts = .error e) : e.Pointed all := by
  have hpoints := hp src ts hts
  rwa [h] at hpoints

namespace Points

theorem of_consumes {p : Parser α} (hp : Consumes p)
    (hcomplains : ∀ src ts e, ts <:+ all → p src ts = .error e → e.Pointed all) : Points all p := by
  intro src ts hts
  cases h : p src ts with
  | ok out => exact hp src ts out.1 out.2 h
  | error e => exact hcomplains src ts e hts h

/-- A parser that never complains. -/
theorem of_ok {p : Parser α} (hp : Consumes p) (hok : ∀ src ts, ∃ out, p src ts = .ok out) :
    Points all p := by
  refine of_consumes hp fun src ts e _ h => ?_
  obtain ⟨out, hout⟩ := hok src ts
  rw [hout] at h
  contradiction

/-- What is left does not depend on where a complaint may point. -/
theorem consumes {p : Parser α} (hp : ∀ all, Points all p) : Consumes p := by
  intro src ts a rest h
  have hpoints := hp ts src ts List.suffix_rfl
  rwa [h] at hpoints

theorem pure (a : α) : Points all (pure a) := of_ok (.pure a) fun _ _ => ⟨_, rfl⟩

theorem bind {p : Parser α} {f : α → Parser β} (hp : Points all p) (hf : ∀ a, Points all (f a)) :
    Points all (p >>= f) := fun src ts hts =>
  (hp src ts hts).bind fun a middle hmiddle =>
    (hf a src middle (hmiddle.trans hts)).imp fun _ _ hrest => hrest.trans hmiddle

theorem ite {c : Prop} [Decidable c] {p q : Parser α} (hp : Points all p) (hq : Points all q) :
    Points all (if c then p else q) := by
  split
  · exact hp
  · exact hq

theorem map {p : Parser α} (f : α → β) (hp : Points all p) : Points all (f <$> p) :=
  hp.bind fun a => .pure (f a)

theorem discard {p : Parser α} (hp : Points all p) : Points all (discard p) := hp.bind fun _ => .pure _

end Points

/-- A problem that is met at the next token. -/
theorem pointed_head? {problem : Problem} (hquotes : problem.quotesToken = true) (hts : ts <:+ all) :
    Complaint.Pointed all ⟨problem, ts.head?⟩ := by
  cases ts with
  | nil => exact .ending hquotes
  | cons t ts => exact .token hquotes (hts.subset List.mem_cons_self)

theorem Points.fail {problem : Problem} (hquotes : problem.quotesToken = true) :
    Points all (fail problem : Parser α) :=
  .of_consumes (.fail problem) fun _ _ _ hts h => Except.error.inj h ▸ pointed_head? hquotes hts

/-- What every step of a loop keeps where it has got to. -/
theorem settles_many {step : σ → Parser (Option σ)} (Inv : List Token → σ → Prop) {src : Source}
    (hstep : ∀ ts s, ts <:+ all → Inv ts s →
      Settles all (fun next rest => rest <:+ ts ∧ ∀ s' ∈ next, Inv rest s') (step s src ts))
    {s : σ} (hts : ts <:+ all) (hs : Inv ts s) :
    Settles all (fun _ rest => rest <:+ ts) (many step s src ts) := by
  induction ts using (measure List.length).wf.induction generalizing s with
  | h ts ih =>
    have hnext := hstep ts s hts hs
    rw [many]
    cases h : step s src ts with
    | error e =>
      rw [h] at hnext
      exact hnext
    | ok out =>
      obtain ⟨next, rest⟩ := out
      rw [h] at hnext
      obtain ⟨hrest, hinv⟩ := hnext
      cases next with
      | none => exact hrest
      | some s' =>
        dsimp only
        split
        -- The loop goes on only where the step has read a token, so the tokens left are fewer.
        case isTrue hlt =>
          exact (ih rest hlt (hrest.trans hts) (hinv s' rfl)).imp fun _ _ h => h.trans hrest
        case isFalse => exact hrest

theorem Points.many {step : σ → Parser (Option σ)} (hstep : ∀ s, Points all (step s)) (s : σ) :
    Points all (many step s) := fun src _ hts =>
  settles_many (fun _ _ => True)
    (fun ts s hts _ => (hstep s src ts hts).imp fun _ _ hrest => ⟨hrest, fun _ _ => trivial⟩) hts trivial

/-! ### Small parsers -/

theorem points_source : Points all source := .of_ok consumes_source fun _ _ => ⟨_, rfl⟩

theorem points_tokens : Points all tokens := .of_ok consumes_tokens fun _ _ => ⟨_, rfl⟩

theorem points_peek : Points all peek := .of_ok consumes_peek fun _ _ => ⟨_, rfl⟩

theorem points_peekAt (n : Nat) : Points all (peekAt n) := .of_ok (consumes_peekAt n) fun _ _ => ⟨_, rfl⟩

theorem points_peekKeyword : Points all peekKeyword := .of_ok consumes_peekKeyword fun _ _ => ⟨_, rfl⟩

theorem points_peekIsPunct (c : Char) : Points all (peekIsPunct c) :=
  .of_ok (consumes_peekIsPunct c) fun _ _ => ⟨_, rfl⟩

theorem points_advance : Points all advance := .of_ok consumes_advance fun _ _ => ⟨_, rfl⟩

theorem points_eatWords (words : List String) : Points all (eatWords words) := by
  refine .of_ok (consumes_eatWords words) fun src ts => ?_
  unfold eatWords
  split
  all_goals exact ⟨_, rfl⟩

theorem points_eatWord (word : String) : Points all (eatWord word) := points_eatWords [word]

theorem consumes_eatWord (word : String) : Consumes (eatWord word) :=
  Points.consumes fun _ => points_eatWord word

theorem points_eatAny (words : List String) : Points all (eatAny words) := by
  refine .of_ok (consumes_eatAny words) fun src ts => ?_
  unfold eatAny
  split
  · split
    all_goals exact ⟨_, rfl⟩
  · exact ⟨_, rfl⟩

theorem points_eatPunct (c : Char) : Points all (eatPunct c) := by
  refine .of_ok (consumes_eatPunct c) fun src ts => ?_
  unfold eatPunct
  split
  · split
    all_goals exact ⟨_, rfl⟩
  · exact ⟨_, rfl⟩

theorem points_expectWords (words : List String) : Points all (expectWords words) :=
  (points_eatWords words).bind fun _ => .ite (.pure _) (.fail rfl)

theorem points_expectWord (word : String) : Points all (expectWord word) := points_expectWords [word]

theorem consumes_expectWord (word : String) : Consumes (expectWord word) :=
  Points.consumes fun _ => points_expectWord word

theorem points_expectPunct (c : Char) : Points all (expectPunct c) :=
  (points_eatPunct c).bind fun _ => .ite (.pure _) (.fail rfl)

theorem points_ident : Points all ident := by
  refine .of_consumes consumes_ident fun src ts e hts h => ?_
  unfold ident at h
  split at h
  case h_1 t rest =>
    split at h
    case h_1 => contradiction
    case h_2 => exact Except.error.inj h ▸ pointed_head? rfl hts
  case h_2 => exact Except.error.inj h ▸ pointed_head? rfl hts

theorem points_objectName : Points all objectName :=
  points_ident.bind fun _ => .many (fun _ => (points_eatPunct '.').bind fun _ =>
    .ite (points_ident.map _) (.pure _)) _

theorem consumes_objectName : Consumes objectName :=
  Points.consumes fun _ => points_objectName

theorem points_parenthesized : Points all parenthesized := by
  refine .of_consumes consumes_parenthesized fun src ts e hts h => ?_
  unfold parenthesized at h
  split at h
  case h_1 t rest =>
    split at h
    case isTrue hopens =>
      split at h
      case h_1 => contradiction
      case h_2 hcloses =>
        obtain ⟨front, hall⟩ := hts
        exact Except.error.inj h ▸ .unbalanced hall.symm hopens hcloses
    case isFalse => exact Except.error.inj h ▸ pointed_head? rfl hts
  case h_2 => exact Except.error.inj h ▸ pointed_head? rfl hts

theorem points_skipParenthesized : Points all skipParenthesized :=
  (points_peekIsPunct '(').bind fun _ => .ite points_parenthesized.discard (.pure _)

theorem consumes_skipParenthesized : Consumes skipParenthesized :=
  Points.consumes fun _ => points_skipParenthesized

theorem points_skipElement : Points all skipElement := .of_ok consumes_skipElement fun _ _ => ⟨_, rfl⟩

theorem points_defaultExpression : Points all defaultExpression := by
  refine .of_consumes consumes_defaultExpression fun src ts e hts h => ?_
  unfold defaultExpression at h
  split at h
  case h_1 => contradiction
  case h_2 => exact Except.error.inj h ▸ pointed_head? rfl hts

theorem points_signedNumber : Points all signedNumber := by
  refine (points_eatPunct '-').bind fun negative => .ite (points_tokens.bind fun ts => ?_)
    ((points_eatPunct '+').discard.bind fun _ => points_tokens.bind fun ts => ?_)
  all_goals
    split
    · exact .ite (.fail rfl) (.ite (.fail rfl) (points_advance.bind fun _ => .pure _))
    · exact .fail rfl

theorem points_remainder : Points all remainder := by
  refine .of_ok consumes_remainder fun src ts => ?_
  cases ts with
  | nil => exact ⟨_, rfl⟩
  | cons t ts => exact ⟨_, rfl⟩

theorem points_columnList : Points all columnList := by
  have hcolumn : Points all (do
      let name ← ident
      skipParenthesized
      discard (eatAny ["ASC", "DESC"])
      return name) :=
    points_ident.bind fun _ => points_skipParenthesized.bind fun _ =>
      (points_eatAny _).discard.bind fun _ => .pure _
  refine (points_expectPunct '(').bind fun _ => hcolumn.bind fun _ => .bind (.many ?_ _) fun _ =>
    (points_expectPunct ')').bind fun _ => .pure _
  exact fun _ => (points_eatPunct ',').bind fun _ => .ite (hcolumn.bind fun _ => .pure _) (.pure _)

end Parser

namespace Grammar

open DdlBridge.Parser

variable {all ts : List Token}

/-! ### Columns -/

theorem points_typeWord (words : List String) : Points all (typeWord words) :=
  points_peekKeyword.bind fun _ => .ite (points_advance.bind fun _ => .pure _) (.pure _)

theorem consumes_typeWord (words : List String) : Consumes (typeWord words) :=
  Points.consumes fun _ => points_typeWord words

theorem points_intervalWord (words : List String) : Points all (intervalWord words) := by
  refine (points_eatAny _).bind fun found => ?_
  split
  · exact .pure _
  · exact (points_peekIsPunct '(').bind fun _ =>
      .ite (points_parenthesized.discard.bind fun _ => .pure _) (.pure _)

theorem points_timeZone (c : Column) : Points all (timeZone c) :=
  points_peekKeyword.bind fun _ => .ite
    (points_advance.bind fun _ => (points_eatWord _).bind fun _ =>
      .bind (points_expectWords _) fun _ => .pure _) (.pure _)

theorem points_signedness (c : Column) : Points all (signedness c) := by
  refine (points_eatAny _).bind fun found => ?_
  split
  all_goals exact .pure _

theorem points_arrayBrackets (c : Column) : Points all (arrayBrackets c) :=
  (points_eatPunct '[').bind fun _ => .ite
    (points_peek.bind fun _ => .ite
      (points_advance.bind fun _ => (points_expectPunct ']').bind fun _ => .pure _)
      ((points_expectPunct ']').bind fun _ => .pure _)) (.pure _)

theorem points_columnType (name : String) : Points all (columnType name) := by
  have hrest : ∀ c, Points all (do
      let c ← timeZone c
      let c ← many signedness c
      let c ← many arrayBrackets c
      return withoutSerial c) := fun c =>
    (points_timeZone c).bind fun c => (Points.many points_signedness c).bind fun c =>
      (Points.many points_arrayBrackets c).bind fun c => .pure _
  refine points_peek.bind fun first => ?_
  split
  · refine points_advance.bind fun _ => (Points.many points_typeWord _).bind fun words =>
      .ite ((Points.many points_intervalWord _).bind fun _ => .pure _) ?_
    exact (points_peekIsPunct '(').bind fun _ => .ite
      ((points_parenthesized.map _).bind hrest) (hrest _)
  · exact .fail rfl

theorem consumes_columnType (name : String) : Consumes (columnType name) :=
  Points.consumes fun _ => points_columnType name

theorem points_refAction : Points all refAction := by
  refine points_peekKeyword.bind fun word => ?_
  split
  case h_1 | h_2 => exact points_advance.bind fun _ => .pure _
  case h_3 => exact (points_expectWords _).bind fun _ => .pure _
  case h_4 =>
    refine points_advance.bind fun _ => (points_eatAny _).bind fun found => ?_
    split
    · exact .pure _
    · exact .fail rfl
  case h_5 => exact .fail rfl

theorem points_refClause (fk : Constraint) : Points all (refClause fk) :=
  (points_eatWords _).bind fun _ => .ite (points_refAction.bind fun _ => .pure _) <|
  (points_eatWords _).bind fun _ => .ite (points_refAction.bind fun _ => .pure _) <|
  (points_eatWord _).bind fun _ => .ite (points_advance.bind fun _ => .pure _) <|
  (points_eatWord _).bind fun _ => .ite (.pure _) <|
  (points_eatWords _).bind fun _ => .ite (.pure _) <|
  (points_eatWord _).bind fun _ => .ite (points_advance.bind fun _ => .pure _) (.pure _)

theorem points_references (fk : Constraint) : Points all (references fk) :=
  points_objectName.bind fun _ => (points_peekIsPunct '(').bind fun _ => .ite
    (points_columnList.bind fun _ => .many points_refClause _) (.many points_refClause _)

theorem consumes_references (fk : Constraint) : Consumes (references fk) :=
  Points.consumes fun _ => points_references fk

theorem points_generated (c : Column) : Points all (generated c) := by
  have hrest : Points all (do
      expectWord "AS"
      if ← eatWord "IDENTITY" then
        skipParenthesized
        return { c with autoIncrement := true }
      else
        discard parenthesized
        discard (eatAny ["STORED", "VIRTUAL"])
        return c) :=
    (points_expectWord _).bind fun _ => (points_eatWord _).bind fun _ => .ite
      (points_skipParenthesized.bind fun _ => .pure _)
      (points_parenthesized.discard.bind fun _ =>
        (points_eatAny _).discard.bind fun _ => .pure _)
  exact (points_eatWord _).bind fun _ => .ite hrest <| (points_eatWords _).bind fun _ =>
    .ite ((points_eatWords _).discard.bind fun _ => hrest) hrest

theorem consumes_generated (c : Column) : Consumes (generated c) :=
  Points.consumes fun _ => points_generated c

theorem points_columnClause (draft : ColumnDraft) : Points all (columnClause draft) := by
  refine points_peek.bind fun next => ?_
  split
  case h_2 => exact .pure _
  refine .ite (.pure _) ?_
  dsimp only
  split
  case h_1 => exact (points_expectWords _).bind fun _ => .pure _
  case h_2 | h_9 | h_10 => exact points_advance.bind fun _ => .pure _
  case h_3 =>
    exact (points_expectWords _).bind fun _ => (points_eatAny _).discard.bind fun _ => .pure _
  case h_4 => exact points_advance.bind fun _ => (points_eatWord _).discard.bind fun _ => .pure _
  case h_5 => exact points_advance.bind fun _ => points_defaultExpression.bind fun _ => .pure _
  case h_6 => exact points_advance.bind fun _ => points_parenthesized.bind fun _ => .pure _
  case h_7 => exact points_advance.bind fun _ => (points_references _).bind fun _ => .pure _
  case h_8 => exact points_advance.bind fun _ => points_ident.bind fun _ => .pure _
  case h_11 => exact points_advance.bind fun _ => points_skipParenthesized.bind fun _ => .pure _
  case h_12 => exact points_advance.bind fun _ => (points_generated _).bind fun _ => .pure _
  case h_13 =>
    exact (points_expectWords _).bind fun _ => points_advance.bind fun _ =>
      points_skipParenthesized.bind fun _ => .pure _
  case h_14 | h_15 | h_16 => exact points_advance.bind fun _ => points_advance.bind fun _ => .pure _
  case h_17 => exact (points_expectWords _).bind fun _ => points_advance.bind fun _ => .pure _
  case h_18 => exact points_advance.bind fun _ => points_skipParenthesized.bind fun _ => .pure _

theorem consumes_columnClause (draft : ColumnDraft) : Consumes (columnClause draft) :=
  Points.consumes fun _ => points_columnClause draft

theorem points_columnDefinition : Points all columnDefinition :=
  points_ident.bind fun name => (points_columnType name).bind fun _ =>
    (Points.many points_columnClause _).bind fun _ => .pure _

theorem consumes_columnDefinition : Consumes columnDefinition :=
  Points.consumes fun _ => points_columnDefinition

/-! ### Constraints of a table -/

theorem points_atConstraint : Points all atConstraint := by
  refine points_source.bind fun src => points_peekKeyword.bind fun word => ?_
  split
  case h_5 => exact (points_peekAt 1).bind fun _ => .pure _
  all_goals exact .pure _

theorem consumes_atConstraint : Consumes atConstraint :=
  Points.consumes fun _ => points_atConstraint

theorem points_skipIndexName : Points all skipIndexName :=
  (points_peekIsPunct '(').bind fun _ => .ite (.pure _) points_ident.discard

theorem points_constraintBody (name : Option String) : Points all (constraintBody name) := by
  refine points_peekKeyword.bind fun word => ?_
  split
  case h_1 =>
    exact (points_expectWords _).bind fun _ => (points_eatAny _).discard.bind fun _ =>
      points_columnList.bind fun _ => points_skipElement.bind fun _ => .pure _
  case h_2 =>
    exact (points_expectWords _).bind fun _ => points_skipIndexName.bind fun _ =>
      points_columnList.bind fun _ => (points_expectWord _).bind fun _ =>
        (points_references _).bind fun _ => points_skipElement.bind fun _ => .pure _
  case h_3 =>
    exact points_advance.bind fun _ => (points_eatAny _).discard.bind fun _ =>
      (points_eatAny _).discard.bind fun _ => points_skipIndexName.bind fun _ =>
        points_columnList.bind fun _ => points_skipElement.bind fun _ => .pure _
  case h_4 =>
    exact points_advance.bind fun _ => points_parenthesized.bind fun _ =>
      points_skipElement.bind fun _ => .pure _
  case h_5 | h_6 | h_7 | h_8 => exact points_skipElement.bind fun _ => .pure _
  case h_9 => exact .fail rfl

theorem points_tableConstraint : Points all tableConstraint :=
  (points_eatWord _).bind fun _ => .ite
    ((points_ident.map _).bind points_constraintBody) (points_constraintBody _)

theorem consumes_tableConstraint : Consumes tableConstraint :=
  Points.consumes fun _ => points_tableConstraint

/-! ### Progress -/

theorem progresses_columnClause (draft : ColumnDraft) : Progresses (columnClause draft) := by
  intro src ts next rest h
  cases ts with
  | nil =>
    obtain ⟨rfl, rfl⟩ := Prod.mk.inj (Except.ok.inj h)
    exact .inl ⟨rfl, rfl⟩
  | cons t ts =>
    have hpeek : peek src (t :: ts) = .ok (some t, t :: ts) := rfl
    rw [columnClause, bind_of_ok hpeek] at h
    dsimp only at h
    split at h
    · obtain ⟨rfl, rfl⟩ := Prod.mk.inj (Except.ok.inj h)
      exact .inl ⟨rfl, rfl⟩
    -- Each clause reads its keyword first; what follows need only consume.
    refine .inr ⟨t, ts, rfl, (?_ : Shortens _) src (t :: ts) next rest h⟩
    split
    case h_1 => exact (shortens_expectWords _ _).bind fun _ => .pure _
    case h_2 | h_9 | h_10 => exact shortens_advance.bind fun _ => .pure _
    case h_3 =>
      exact (shortens_expectWords _ _).bind fun _ => (consumes_eatAny _).discard.bind fun _ => .pure _
    case h_4 =>
      exact shortens_advance.bind fun _ => (consumes_eatWord _).discard.bind fun _ => .pure _
    case h_5 => exact shortens_advance.bind fun _ => consumes_defaultExpression.bind fun _ => .pure _
    case h_6 => exact shortens_advance.bind fun _ => consumes_parenthesized.bind fun _ => .pure _
    case h_7 => exact shortens_advance.bind fun _ => (consumes_references _).bind fun _ => .pure _
    case h_8 => exact shortens_advance.bind fun _ => consumes_ident.bind fun _ => .pure _
    case h_11 => exact shortens_advance.bind fun _ => consumes_skipParenthesized.bind fun _ => .pure _
    case h_12 => exact shortens_advance.bind fun _ => (consumes_generated _).bind fun _ => .pure _
    case h_13 =>
      exact (shortens_expectWords _ _).bind fun _ => consumes_advance.bind fun _ =>
        consumes_skipParenthesized.bind fun _ => .pure _
    case h_14 | h_15 | h_16 =>
      exact shortens_advance.bind fun _ => consumes_advance.bind fun _ => .pure _
    case h_17 => exact (shortens_expectWords _ _).bind fun _ => consumes_advance.bind fun _ => .pure _
    case h_18 => exact shortens_advance.bind fun _ => consumes_skipParenthesized.bind fun _ => .pure _

theorem consumes_tableElement (table : Table) : Consumes (tableElement table) := by
  refine consumes_atConstraint.bind fun _ => .ite (consumes_tableConstraint.bind fun _ => .pure _) ?_
  refine consumes_tokens.bind fun start => consumes_columnDefinition.bind fun found => .ite ?_ (.pure _)
  exact fun _ _ _ _ h => absurd h (by simp)

end Grammar

end DdlBridge
