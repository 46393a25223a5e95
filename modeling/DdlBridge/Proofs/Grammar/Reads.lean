import DdlBridge.Grammar.Parser
import DdlBridge.Proofs.Grammar.Parser
import DdlBridge.Proofs.Token.Atom

/-!
# Reading atoms

A parser reads atoms in front of others if it does so wherever they stand (`Reads`). What a parser
returns may quote its text and depend on what follows, so both are part of the statement.
-/

namespace DdlBridge

open Text Atom

/-- What holds of the first token of atoms, wherever they stand. -/
def Atom.Follows (P : Token → Prop) (as : List Atom) : Prop := ∀ n, ∀ t ∈ (place n as).head?, P t

namespace Parser

variable {α β σ : Type} {d : Dialect} {as bs more : List Atom}

/-- From atoms that `more` follows the parser makes `a` and leaves `more`. -/
def Reads (d : Dialect) (p : Parser α) (as : List Atom) (a : α) (more : List Atom) : Prop :=
  ∀ front : List Char, p ⟨front ++ textOf (as ++ more), d⟩ (place (width front) (as ++ more)) =
    .ok (a, place (width front + width (textOf as)) more)

theorem append_textOf (front : List Char) (as bs more : List Atom) :
    front ++ textOf as ++ textOf (bs ++ more) = front ++ textOf (as ++ bs ++ more) := by
  simp only [textOf_append, List.append_assoc]

theorem width_textOf_append (n : Nat) (as bs : List Atom) :
    n + width (textOf (as ++ bs)) = n + width (textOf as) + width (textOf bs) := by
  rw [textOf_append, width_append, Nat.add_assoc]

theorem Reads.pure (a : α) (more : List Atom) : Reads d (pure a) [] a more := fun _ => rfl

theorem Reads.bind {l r : List Atom} {p : Parser α} {f : α → Parser β} {a : α} {b : β}
    (hp : Reads d p l a (r ++ more)) (hf : Reads d (f a) r b more) :
    Reads d (p >>= f) (l ++ r) b more := by
  intro front
  have hfirst := hp front
  have hrest := hf (front ++ textOf l)
  rw [← List.append_assoc] at hfirst
  rw [append_textOf, width_append] at hrest
  rw [bind_of_ok hfirst, width_textOf_append]
  exact hrest

/-- A parser that reads nothing decides how to go on. -/
theorem Reads.bind_nil {r : List Atom} {p : Parser α} {f : α → Parser β} {a : α} {b : β}
    (hp : Reads d p [] a (r ++ more)) (hf : Reads d (f a) r b more) : Reads d (p >>= f) r b more :=
  Reads.bind hp hf

theorem Reads.bind_pure {p : Parser α} {f : α → Parser β} {a : α} {b : β}
    (hp : Reads d p as a more) (hf : Reads d (f a) [] b more) : Reads d (p >>= f) as b more := by
  have hboth : Reads d (p >>= f) (as ++ []) b more := Reads.bind hp hf
  rwa [List.append_nil] at hboth

theorem Reads.map {p : Parser α} {a : α} (hp : Reads d p as a more) (f : α → β) :
    Reads d (f <$> p) as (f a) more := by
  intro front
  show (p >>= fun x => Pure.pure (f x)) _ _ = _
  rw [bind_of_ok (hp front)]
  rfl

theorem Reads.discard {p : Parser α} {a : α} (hp : Reads d p as a more) :
    Reads d (discard p) as () more := hp.map _

/-- Blanks in front are no tokens. -/
theorem Reads.blank {p : Parser α} {a : α} (c : Char) (hp : Reads d p as a more) :
    Reads d p (.blank c :: as) a more := by
  intro front
  have h := hp (front ++ [c])
  have htext : front ++ textOf (.blank c :: as ++ more) = front ++ [c] ++ textOf (as ++ more) := by
    rw [List.cons_append, textOf_cons, List.append_assoc]
    rfl
  rw [width_append] at h
  rw [htext, textOf_cons, width_append, ← Nat.add_assoc]
  exact h

/-- Looking at the next token reads nothing. -/
theorem Reads.peek {f : Option Token → Parser β} {b : β}
    (h : ∀ n, Reads d (f (place n (as ++ more)).head?) as b more) :
    Reads d (peek >>= f) as b more := fun front => h (width front) front

theorem Reads.peekKeyword {f : String → Parser β} {b : β}
    (h : ∀ n, Reads d (f (((place n (as ++ more)).head?.map (·.keyword)).getD "")) as b more) :
    Reads d (peekKeyword >>= f) as b more := fun front => h (width front) front

theorem Reads.peekIsPunct {c : Char} {f : Bool → Parser β} {b : β}
    (h : ∀ n, Reads d (f ((place n (as ++ more)).head?.any (·.isPunct c))) as b more) :
    Reads d (peekIsPunct c >>= f) as b more := fun front => h (width front) front

theorem any_head?_of_follows {c : Char} (h : Follows (·.isPunct c = false) as) (n : Nat) :
    (place n as).head?.any (·.isPunct c) = false := by
  have hn := h n
  cases hhead : (place n as).head? with
  | none => rfl
  | some t =>
    rw [hhead] at hn
    exact hn t rfl

end Parser

/-! ### What follows -/

namespace Atom

variable {P Q : Token → Prop} {as : List Atom}

theorem Follows.imp (h : Follows P as) (hPQ : ∀ t, P t → Q t) : Follows Q as :=
  fun n t ht => hPQ t (h n t ht)

theorem Follows.blank (h : Follows P as) (c : Char) : Follows P (blank c :: as) :=
  fun n => h (n + width [c])

theorem follows_cons {a : Atom} {kind : TokenKind} (hkind : a.kind? = some kind)
    (h : ∀ n, P ⟨kind, a.text, n⟩) (as : List Atom) : Follows P (a :: as) := by
  intro n t ht
  rw [place_of_kind hkind] at ht
  obtain rfl := Option.some.inj ht
  exact h n

theorem follows_word {cs : List Char} (h : ∀ n, P ⟨.word, cs, n⟩) (as : List Atom) :
    Follows P (word cs :: as) := follows_cons rfl h as

theorem follows_punct {c : Char} (h : ∀ n, P ⟨.punct, [c], n⟩) (as : List Atom) :
    Follows P (punct c :: as) := follows_cons rfl h as

theorem le_offset_of_mem_place {n : Nat} {t : Token} (h : t ∈ place n as) : n ≤ t.offset := by
  induction as generalizing n with
  | nil => exact absurd h (by simp [place])
  | cons a as ih =>
    rw [place] at h
    rcases List.mem_append.1 h with h | h
    · rw [Option.mem_toList] at h
      obtain ⟨kind, -, rfl⟩ := Option.map_eq_some_iff.1 h
      exact Nat.le_refl n
    · exact Nat.le_trans (Nat.le_add_right _ _) (ih h)

/-- Words with a blank between any two. -/
def spell : List String → List Atom
  | [] => []
  | [w] => [word w.toList]
  | w :: v :: ws => word w.toList :: blank ' ' :: spell (v :: ws)

end Atom

namespace Parser

variable {α β σ : Type} {d : Dialect} {as bs more : List Atom}

/-! ### Words and punctuation -/

theorem startsWith_spell (n : Nat) (ws : List String) (more : List Atom) :
    startsWith ws (place n (spell ws ++ more)) = true ∧
      (place n (spell ws ++ more)).drop ws.length =
        place (n + width (textOf (spell ws))) more := by
  have hword : ∀ (n : Nat) (w : String), (⟨.word, w.toList, n⟩ : Token).isWord w = true := by
    intro n w
    simp [Token.isWord]
  induction ws generalizing n with
  | nil => exact ⟨rfl, rfl⟩
  | cons w ws ih =>
    cases ws with
    | nil =>
      refine ⟨?_, ?_⟩
      · show ((⟨.word, w.toList, n⟩ : Token).isWord w && startsWith [] _) = true
        rw [hword]
        rfl
      · simp [spell, place, token?, kind?, textOf, text]
    | cons v ws =>
      obtain ⟨hstarts, hdrop⟩ := ih (n + width w.toList + width [' '])
      refine ⟨?_, ?_⟩
      · show ((⟨.word, w.toList, n⟩ : Token).isWord w && startsWith (v :: ws) _) = true
        rw [hword]
        exact hstarts
      · have hwidth : n + width (textOf (spell (w :: v :: ws))) =
            n + width w.toList + width [' '] + width (textOf (spell (v :: ws))) := by
          rw [spell, textOf_cons, textOf_cons, width_append, width_append]
          simp only [text]
          omega
        rw [hwidth, ← hdrop]
        rfl

theorem reads_eatWords (ws : List String) (more : List Atom) :
    Reads d (eatWords ws) (spell ws) true more := by
  intro front
  obtain ⟨hstarts, hdrop⟩ := startsWith_spell (width front) ws more
  rw [eatWords, if_pos hstarts, hdrop]

theorem reads_eatWords_none {w : String} {ws : List String} (h : Follows (·.isWord w = false) more) :
    Reads d (eatWords (w :: ws)) [] false more := by
  intro front
  have hnot : startsWith (w :: ws) (place (width front) ([] ++ more)) = false := by
    have hfirst := h (width front)
    rw [List.nil_append]
    cases hplace : place (width front) more with
    | nil => rfl
    | cons t ts =>
      rw [hplace] at hfirst
      rw [startsWith, hfirst t rfl, Bool.false_and]
  rw [eatWords, if_neg (by rw [hnot]; simp)]
  rfl

theorem reads_expectWords (ws : List String) (more : List Atom) :
    Reads d (expectWords ws) (spell ws) () more :=
  Reads.bind_pure (reads_eatWords ws more) (Reads.pure () more)

theorem reads_eatPunct (c : Char) (more : List Atom) :
    Reads d (eatPunct c) [.punct c] true more := by
  intro front
  show (if (⟨.punct, [c], width front⟩ : Token).isPunct c then _ else _) = _
  rw [if_pos (by simp [Token.isPunct])]
  rfl

theorem reads_eatPunct_none {c : Char} (h : Follows (·.isPunct c = false) more) :
    Reads d (eatPunct c) [] false more := by
  intro front
  have hfirst := h (width front)
  rw [List.nil_append]
  cases hplace : place (width front) more with
  | nil => rw [eatPunct]; exact congrArg (fun ts => Except.ok (false, ts)) hplace.symm
  | cons t ts =>
    rw [hplace] at hfirst
    show (if t.isPunct c then _ else _) = _
    rw [if_neg (by rw [hfirst t rfl]; simp)]
    exact congrArg (fun ts => Except.ok (false, ts)) hplace.symm

theorem reads_expectPunct (c : Char) (more : List Atom) :
    Reads d (expectPunct c) [.punct c] () more :=
  Reads.bind_pure (reads_eatPunct c more) (Reads.pure () more)

theorem reads_eatAny {w : String} {ws : List String} (hupper : String.ofList (upper w.toList) = w)
    (hmem : w ∈ ws) (more : List Atom) : Reads d (eatAny ws) [.word w.toList] (some w) more := by
  intro front
  have hkeyword : (⟨.word, w.toList, width front⟩ : Token).keyword = w := hupper
  have hplace : place (width front) ([.word w.toList] ++ more) =
      ⟨.word, w.toList, width front⟩ :: place (width front + width w.toList) more := rfl
  rw [hplace, eatAny, if_pos (by rwa [hkeyword]), hkeyword, textOf_singleton]
  rfl

theorem reads_eatAny_none {ws : List String} (h : Follows (·.keyword ∉ ws) more) :
    Reads d (eatAny ws) [] none more := by
  intro front
  have hfirst := h (width front)
  rw [List.nil_append]
  cases hplace : place (width front) more with
  | nil => exact congrArg (fun ts => Except.ok (none, ts)) hplace.symm
  | cons t ts =>
    rw [hplace] at hfirst
    show (if t.keyword ∈ ws then _ else _) = _
    rw [if_neg (hfirst t rfl)]
    exact congrArg (fun ts => Except.ok (none, ts)) hplace.symm

theorem reads_advance {a : Atom} (ha : a.kind? ≠ none) (more : List Atom) :
    Reads d advance [a] () more := by
  intro front
  obtain ⟨kind, hkind⟩ := Option.ne_none_iff_exists'.1 ha
  rw [List.singleton_append, place_of_kind hkind, advance, textOf_singleton]
  rfl

theorem reads_advance_word (cs : List Char) (more : List Atom) : Reads d advance [.word cs] () more :=
  reads_advance (by simp [kind?]) more

/-! ### Repetition -/

theorem many_of_none {step : σ → Parser (Option σ)} {s : σ} {src : Source} {ts rest : List Token}
    (h : step s src ts = .ok (none, rest)) : many step s src ts = .ok (s, rest) := by
  rw [many, h]

theorem many_of_error {step : σ → Parser (Option σ)} {s : σ} {src : Source} {ts : List Token}
    {e : Complaint} (h : step s src ts = .error e) : many step s src ts = .error e := by
  rw [many, h]

theorem many_of_some {step : σ → Parser (Option σ)} {s s' : σ} {src : Source}
    {ts rest : List Token} (h : step s src ts = .ok (some s', rest)) (hlt : rest.length < ts.length) :
    many step s src ts = many step s' src rest := by
  rw [many, h]
  exact if_pos hlt

theorem length_place (n k : Nat) (as : List Atom) : (place n as).length = (place k as).length := by
  induction as generalizing n k with
  | nil => rfl
  | cons a as ih =>
    have htoken : ∀ n, (a.token? n).toList.length = a.kind?.toList.length := by
      intro n
      rw [token?]
      cases a.kind? with
      | none => rfl
      | some kind => rfl
    rw [place, place, List.length_append, List.length_append, htoken, htoken,
      ih _ (k + width a.text)]

theorem Reads.many_nil {step : σ → Parser (Option σ)} {s : σ}
    (h : Reads d (step s) [] none more) : Reads d (many step s) [] s more :=
  fun front => many_of_none (h front)

theorem Reads.many_cons {step : σ → Parser (Option σ)} {s s' r : σ}
    (hstep : Reads d (step s) as (some s') (bs ++ more)) (htokens : place 0 as ≠ [])
    (hrest : Reads d (many step s') bs r more) : Reads d (many step s) (as ++ bs) r more := by
  intro front
  have hfirst := hstep front
  have hmore := hrest (front ++ textOf as)
  rw [← List.append_assoc] at hfirst
  have hlt : (place (width front + width (textOf as)) (bs ++ more)).length <
      (place (width front) (as ++ bs ++ more)).length := by
    have hpos : 0 < (place (width front) as).length := by
      rw [length_place _ 0]
      exact List.length_pos_iff.2 htokens
    rw [List.append_assoc, place_append (width front) as, List.length_append]
    omega
  rw [append_textOf, width_append] at hmore
  rw [many_of_some hfirst hlt, width_textOf_append]
  exact hmore

end Parser

end DdlBridge
