import DdlBridge.Proofs.Ddl.Name

/-!
# Phrases

What several definitions hold: names, lists of names, texts in parentheses, default values and
signed numbers.
-/

namespace DdlBridge

open Text Atom Ddl DdlBridge.Parser

namespace Atom

variable {as : List Atom} {P : Token → Prop}

theorem isPunct_of_token? {a : Atom} {n : Nat} {t : Token} (h : a.token? n = some t) (c : Char) :
    t.isPunct c = true ↔ a = punct c := by
  obtain ⟨kind, hkind, rfl⟩ := Option.map_eq_some_iff.1 h
  cases a with
  | blank => exact absurd hkind (by simp [kind?])
  | punct e =>
    obtain rfl := Option.some.inj hkind
    simp [Token.isPunct, text]
  | word | number =>
    obtain rfl := Option.some.inj hkind
    simp [Token.isPunct]
  | quoted =>
    obtain rfl := Option.some.inj hkind
    simp only [Token.isPunct, Bool.and_eq_true, beq_iff_eq, reduceCtorEq, iff_false, not_and]
    intro hpunct
    split at hpunct
    all_goals exact absurd hpunct (by simp)

/-- The nesting depth behind atoms, unless a parenthesis closes that none opens. -/
def depthFrom : Nat → List Atom → Option Nat
  | k, [] => some k
  | k, a :: as =>
    if a = punct '(' then depthFrom (k + 1) as
    else if a = punct ')' then
      match k with
      | 0 => none
      | k + 1 => depthFrom k as
    else depthFrom k as

/-- Every parenthesis has its other one. -/
def Balanced (as : List Atom) : Prop := depthFrom 0 as = some 0

instance (as : List Atom) : Decidable (Balanced as) :=
  inferInstanceAs (Decidable (depthFrom 0 as = some 0))

theorem balanced_of_not_mem (hopen : punct '(' ∉ as) (hclose : punct ')' ∉ as) : Balanced as := by
  have hdepth : ∀ as : List Atom, punct '(' ∉ as → punct ')' ∉ as → ∀ k, depthFrom k as = some k := by
    intro as
    induction as with
    | nil => exact fun _ _ _ => rfl
    | cons a as ih =>
      intro hopen hclose k
      rw [List.mem_cons, not_or] at hopen hclose
      rw [depthFrom.eq_def]
      dsimp only
      rw [if_neg (Ne.symm hopen.1), if_neg (Ne.symm hclose.1)]
      exact ih hopen.2 hclose.2 k
  exact hdepth as hopen hclose 0

theorem closing?_place {k : Nat} (n : Nat) (h : depthFrom k as = some 0) (more : List Atom) :
    closing? k (place n (as ++ punct ')' :: more)) =
      some (⟨.punct, [')'], n + width (textOf as)⟩, place (n + width (textOf as) + 1) more) := by
  induction as generalizing k n with
  | nil =>
    obtain rfl := Option.some.inj h
    rfl
  | cons a as ih =>
    have hwidth : n + width (textOf (a :: as)) = n + width a.text + width (textOf as) := by
      rw [textOf_cons, width_append, Nat.add_assoc]
    rw [depthFrom.eq_def] at h
    dsimp only at h
    rw [hwidth, List.cons_append, place]
    cases htoken : a.token? n with
    | none =>
      have hopen : a ≠ punct '(' := by
        rintro rfl
        exact absurd htoken (by simp [token?, kind?])
      have hclose : a ≠ punct ')' := by
        rintro rfl
        exact absurd htoken (by simp [token?, kind?])
      rw [if_neg hopen, if_neg hclose] at h
      exact ih _ h
    | some t =>
      rw [Option.toList_some, List.singleton_append, closing?.eq_def]
      simp only [isPunct_of_token? htoken]
      split at h
      case isTrue hopen => rw [if_pos hopen, ih _ h]
      case isFalse hopen =>
        rw [if_neg hopen]
        split at h
        case isTrue hclose =>
          rw [if_pos hclose]
          cases k with
          | zero => exact absurd h (by simp)
          | succ k => exact ih _ h
        case isFalse hclose => rw [if_neg hclose, ih _ h]

end Atom

namespace Parser

variable {α σ ι : Type} {d : Dialect} {as inner more : List Atom}

/-! ### Parentheses -/

theorem parenthesized_of_closing? {src : Source} {t close : Token} {ts rest : List Token}
    (hopen : t.isPunct '(' = true) (hclosing : closing? 0 ts = some (close, rest)) :
    parenthesized src (t :: ts) = .ok (trim (slice t.stop close.offset src.text), rest) := by
  simp only [parenthesized, hopen, if_true, hclosing]

theorem reads_parenthesized (h : Balanced inner) (more : List Atom) :
    Reads d parenthesized (punct '(' :: (inner ++ [punct ')'])) (trim (textOf inner)) more := by
  intro front
  have hatoms : punct '(' :: (inner ++ [punct ')']) ++ more =
      punct '(' :: (inner ++ punct ')' :: more) := by simp
  have htext : front ++ textOf (punct '(' :: (inner ++ punct ')' :: more)) =
      (front ++ ['(']) ++ (textOf inner ++ textOf (punct ')' :: more)) := by
    rw [textOf_cons, textOf_append]
    simp [text]
  have hclosing := closing?_place (width front + width ['(']) h more
  have hslice := slice_width_append (front ++ ['(']) (textOf inner) (textOf (punct ')' :: more))
  rw [width_append] at hslice
  have hstop : width front + width (textOf (punct '(' :: (inner ++ [punct ')']))) =
      width front + width ['('] + width (textOf inner) + 1 := by
    rw [textOf_cons, textOf_append, width_append, width_append, ← Nat.add_assoc, ← Nat.add_assoc]
    rfl
  rw [hatoms, hstop]
  refine (parenthesized_of_closing? (t := ⟨.punct, ['('], width front⟩) rfl hclosing).trans ?_
  rw [htext]
  dsimp only [Token.stop]
  rw [hslice]

theorem reads_skipParenthesized (h : Balanced inner) (more : List Atom) :
    Reads d skipParenthesized (punct '(' :: (inner ++ [punct ')'])) () more :=
  Reads.peekIsPunct fun _ => (reads_parenthesized h more).discard

theorem reads_skipParenthesized_none (h : Follows (·.isPunct '(' = false) more) :
    Reads d skipParenthesized [] () more := by
  refine Reads.peekIsPunct fun n => ?_
  rw [List.nil_append, any_head?_of_follows h n]
  exact Reads.pure () more

/-! ### Repetition -/

/-- A step that reads any of some things reads a row of them. -/
theorem Reads.many_flatMap {step : σ → Parser (Option σ)} {apply : σ → ι → σ}
    {atoms : ι → List Atom} {P : List Atom → Prop} {xs : List ι}
    (hstep : ∀ x ∈ xs, ∀ s more, P more → Reads d (step s) (atoms x) (some (apply s x)) more)
    (hfirst : ∀ x ∈ xs, ∀ more, P (atoms x ++ more)) (htokens : ∀ x ∈ xs, place 0 (atoms x) ≠ [])
    (hend : ∀ s, Reads d (step s) [] none more) (hmore : P more) (s : σ) :
    Reads d (many step s) (xs.flatMap atoms) (xs.foldl apply s) more := by
  induction xs generalizing s with
  | nil => exact Reads.many_nil (hend s)
  | cons x xs ih =>
    rw [List.forall_mem_cons] at hstep hfirst htokens
    have hrest : P (xs.flatMap atoms ++ more) := by
      cases xs with
      | nil => exact hmore
      | cons y ys =>
        rw [List.flatMap_cons, List.append_assoc]
        exact hfirst.2 y List.mem_cons_self _
    exact Reads.many_cons (hstep.1 s _ hrest) htokens.1
      (ih hstep.2 hfirst.2 htokens.2 (apply s x))

theorem foldl_snoc (done xs : List α) : xs.foldl (fun ys x => ys ++ [x]) done = done ++ xs := by
  induction xs generalizing done with
  | nil => exact (List.append_nil done).symm
  | cons x xs ih => rw [List.foldl_cons, ih, List.append_assoc, List.singleton_append]

/-! ### Names -/

theorem reads_objectName (d : Dialect) (name : String) (h : Follows (·.isPunct '.' = false) more) :
    Reads d objectName [Atom.name d name] name more :=
  Reads.bind_pure (reads_ident d name more)
    (Reads.many_nil (Reads.bind_nil (reads_eatPunct_none h) (Reads.pure none more)))

end Parser

namespace Atom

/-- A name behind a comma. -/
def nextName (d : Dialect) (name : String) : List Atom := [punct ',', blank ' ', Atom.name d name]

/-- Names with commas between them. -/
def names (d : Dialect) : List String → List Atom
  | [] => []
  | name :: names => Atom.name d name :: names.flatMap (nextName d)

end Atom

namespace Parser

variable {d : Dialect} {more : List Atom}

/-- One column of a list of them. -/
theorem reads_listedColumn (d : Dialect) (name : String)
    (h : Follows (fun t => t.isPunct '(' = false ∧ t.keyword ∉ ["ASC", "DESC"]) more) :
    Reads d (do
      let name ← ident
      skipParenthesized
      discard (eatAny ["ASC", "DESC"])
      return name) [Atom.name d name] name more :=
  Reads.bind_pure (reads_ident d name more) <|
    Reads.bind_nil (r := []) (reads_skipParenthesized_none (h.imp fun _ ht => ht.1)) <|
    Reads.bind_nil (r := []) (reads_eatAny_none (h.imp fun _ ht => ht.2)).discard
      (Reads.pure name more)

theorem reads_columnList (d : Dialect) {names : List String} (hne : names ≠ []) (more : List Atom) :
    Reads d columnList (punct '(' :: (Atom.names d names ++ [punct ')'])) names more := by
  obtain ⟨first, names, rfl⟩ := List.exists_cons_of_ne_nil hne
  let P : List Atom → Prop :=
    Follows fun t => t.isPunct '(' = false ∧ t.keyword ∉ ["ASC", "DESC"]
  have hcomma : ∀ name more, P (nextName d name ++ more) := fun name more =>
    follows_punct (fun _ => ⟨rfl, show "" ∉ ["ASC", "DESC"] by decide⟩) _
  have hclose : P ([punct ')'] ++ more) :=
    follows_punct (fun _ => ⟨rfl, show "" ∉ ["ASC", "DESC"] by decide⟩) _
  have hfirst : P (names.flatMap (nextName d) ++ [punct ')'] ++ more) := by
    cases names with
    | nil => exact hclose
    | cons name names =>
      rw [List.flatMap_cons, List.append_assoc, List.append_assoc]
      exact hcomma name _
  have hfold := foldl_snoc [first] names
  rw [columnList]
  refine Reads.bind (l := [punct '(']) (reads_expectPunct '(' _) ?_
  refine Reads.bind (l := [Atom.name d first]) (reads_listedColumn d first hfirst) ?_
  refine Reads.bind (l := names.flatMap (nextName d)) (a := first :: names) ?_ ?_
  · rw [List.singleton_append] at hfold
    rw [← hfold]
    refine Reads.many_flatMap (P := P) (fun name _ s more hmore => ?_) (fun name _ => hcomma name)
      (fun name _ => by simp [nextName, place, token?, kind?]) (fun s => ?_) hclose [first]
    · refine Reads.bind (l := [punct ',']) (reads_eatPunct ',' _) ?_
      exact (Reads.blank ' ' (Reads.bind_pure (reads_listedColumn d name hmore) (Reads.pure _ _)))
    · refine Reads.bind_nil (reads_eatPunct_none ?_) (Reads.pure none _)
      exact follows_punct (fun n => rfl) _
  · exact Reads.bind_pure (reads_expectPunct ')' _) (Reads.pure _ _)

/-! ### Default values -/

/-- What follows ends a default value. -/
def EndsDefault (t : Token) : Prop := endsElement t = true ∨ t.keyword ∈ columnKeywords

theorem takeDefault_of_follows (h : Follows EndsDefault more) (n : Nat) :
    takeDefault 0 false (place n more) = ([], place n more) := by
  have hfirst := h n
  cases hplace : place n more with
  | nil => rfl
  | cons t ts =>
    rw [hplace] at hfirst
    have ht : endsElement t = true ∨ (!false) = true ∧ t.keyword ∈ columnKeywords :=
      (hfirst t rfl).imp_right fun hmem => ⟨rfl, hmem⟩
    rw [takeDefault, if_pos ⟨rfl, ht⟩]

theorem reads_defaultExpression {a : Atom} (ha : a.kind? = some .string ∨ a.kind? = some .number)
    (h : Follows EndsDefault more) : Reads d defaultExpression [a] a.text more := by
  obtain ⟨kind, hkind, hcases⟩ : ∃ kind, a.kind? = some kind ∧ (kind = .string ∨ kind = .number) := by
    rcases ha with ha | ha
    · exact ⟨_, ha, .inl rfl⟩
    · exact ⟨_, ha, .inr rfl⟩
  intro front
  have hplace : place (width front) ([a] ++ more) =
      ⟨kind, a.text, width front⟩ :: place (width front + width a.text) more :=
    place_of_kind hkind _ _
  have hpunct : ∀ c, (⟨kind, a.text, width front⟩ : Token).isPunct c = false := by
    intro c
    rcases hcases with rfl | rfl <;> rfl
  have htake : takeDefault 0 true (place (width front) ([a] ++ more)) =
      ([⟨kind, a.text, width front⟩], place (width front + width a.text) more) := by
    rw [hplace, takeDefault, if_neg (by simp [endsElement, hpunct]), depthAfter, hpunct, hpunct,
      if_neg (by simp), if_neg (by simp), takeDefault_of_follows h]
  have hslice := slice_width_append front a.text (textOf more)
  have htext : front ++ textOf ([a] ++ more) = front ++ (a.text ++ textOf more) := by
    rw [List.singleton_append, textOf_cons]
  rw [defaultExpression, htake, htext]
  show Except.ok (slice (width front) (width front + width a.text) _, _) = _
  rw [hslice, textOf_cons, textOf, List.flatMap_nil, List.append_nil]

/-! ### Signed numbers -/

theorem Reads.tokens {β : Type} {as : List Atom} {f : List Token → Parser β} {b : β}
    (h : ∀ n, Reads d (f (place n (as ++ more))) as b more) : Reads d (tokens >>= f) as b more :=
  fun front => h (width front) front

end Parser

/-- A number with its sign. -/
def Atom.ofInt (i : Int) : List Atom :=
  if i < 0 then [punct '-', ofNat i.natAbs] else [ofNat i.natAbs]

theorem Atom.textOf_ofInt (i : Int) : textOf (ofInt i) = (toString i).toList := by
  have htext : ∀ n : Nat, textOf [ofNat n] = (toString n).toList := by
    intro n
    rw [textOf_cons, text_ofNat, textOf, List.flatMap_nil, List.append_nil]
  cases i with
  | ofNat n => exact htext n
  | negSucc n =>
    have hneg : Int.negSucc n < 0 := Int.negSucc_lt_zero n
    have hminus : textOf (punct '-' :: [ofNat (n + 1)]) = '-' :: textOf [ofNat (n + 1)] := rfl
    rw [ofInt, if_pos hneg, Int.natAbs_negSucc, hminus, htext]
    show _ = (Int.repr (Int.negSucc n)).toList
    rw [Int.repr, String.toList_append]
    rfl

theorem clamped_natAbs (v : Int64) :
    Parser.clamped (v.toInt < 0) (Nat.toDigits 10 v.toInt.natAbs) = v := by
  have hlower := v.minValue_le_toInt
  have hupper := v.toInt_le
  have hvalue : (if decide (v.toInt < 0) = true then -(v.toInt.natAbs : Int) else v.toInt.natAbs) =
      v.toInt := by
    split
    case isTrue h =>
      have hneg : v.toInt < 0 := of_decide_eq_true h
      omega
    case isFalse h =>
      have hneg : ¬ v.toInt < 0 := fun hlt => h (decide_eq_true hlt)
      omega
  unfold Parser.clamped
  dsimp only
  rw [natural?_toDigits, Option.getD_some, hvalue, Int.min_eq_left hupper, Int.max_eq_right hlower,
    Int64.ofInt_toInt]

namespace Parser

variable {d : Dialect} {more : List Atom}

/-- The digits behind a sign. -/
theorem reads_digits (negative : Bool) (k : Nat)
    (h : ∀ n, ∀ t ∈ (place n more).head?, n < t.offset) : Reads d (do
      match ← tokens with
      | t :: rest =>
        if t.kind ≠ .number then fail .expectedNumber
        else if '.' ∈ t.text ∨ rest.head?.any (fun u => u.kind == .word && u.offset == t.stop) then
          fail .expectedInteger
        else
          advance
          return clamped negative t.text
      | [] => fail .expectedNumber) [ofNat k] (clamped negative (Nat.toDigits 10 k)) more := by
  refine Reads.tokens fun n => ?_
  have htext := text_ofNat_eq k
  have hplace : place n ([ofNat k] ++ more) =
      ⟨.number, Nat.toDigits 10 k, n⟩ :: place (n + width (Nat.toDigits 10 k)) more := by
    rw [List.singleton_append, place, htext, token?, htext]
    rfl
  have hpoint : '.' ∉ Nat.toDigits 10 k := fun hmem =>
    absurd (Nat.isDigit_of_mem_toDigits (by decide) (by decide) hmem) (by decide)
  have hfar : (place (n + width (Nat.toDigits 10 k)) more).head?.any
      (fun u => u.kind == .word && u.offset == n + width (Nat.toDigits 10 k)) = false := by
    have hfirst := h (n + width (Nat.toDigits 10 k))
    cases hhead : (place (n + width (Nat.toDigits 10 k)) more).head? with
    | none => rfl
    | some u =>
      rw [hhead] at hfirst
      have hlt := hfirst u rfl
      have hne : u.offset ≠ n + width (Nat.toDigits 10 k) := by omega
      simp [hne]
  rw [hplace]
  dsimp only
  rw [if_neg (by simp), if_neg (by simp [hpoint, Token.stop, hfar])]
  exact Reads.bind_pure (reads_advance (by simp [ofNat, kind?]) more) (Reads.pure _ more)

theorem reads_signedNumber (v : Int64) (h : ∀ n, ∀ t ∈ (place n more).head?, n < t.offset) :
    Reads d signedNumber (Atom.ofInt v.toInt) v more := by
  have hnumber := fun negative => reads_digits (d := d) negative v.toInt.natAbs h
  have hclamped := clamped_natAbs v
  unfold Atom.ofInt
  split
  case isTrue hneg =>
    rw [decide_eq_true hneg] at hclamped
    have hread := hnumber true
    rw [hclamped] at hread
    exact Reads.bind (l := [punct '-']) (reads_eatPunct '-' _) hread
  case isFalse hneg =>
    rw [decide_eq_false hneg] at hclamped
    have hread := hnumber false
    rw [hclamped] at hread
    have hnot : ∀ c, Follows (·.isPunct c = false) ([ofNat v.toInt.natAbs] ++ more) :=
      fun c => follows_cons rfl (fun _ => rfl) _
    exact Reads.bind_nil (reads_eatPunct_none (hnot '-'))
      (Reads.bind_nil (reads_eatPunct_none (hnot '+')).discard hread)

end Parser

end DdlBridge
