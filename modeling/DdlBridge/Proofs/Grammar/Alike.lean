import DdlBridge.Proofs.Grammar.Parser
import DdlBridge.Proofs.Token.LetterCase
import Mathlib.Data.List.Forall2

/-!
# Parsers that do not see letter case

Parsers are alike if on two spellings of a text they end alike: with results that look the same and
the same tokens left, or with objections at the same place (`Alike`). There is one rule for each way
parsers are put together.
-/

namespace DdlBridge

/-! ### Two spellings -/

/-- Two spellings of a token. -/
structure Token.Twin (t t' : Token) : Prop where
  kind : t.kind = t'.kind
  text : Text.lower t.text = Text.lower t'.text
  offset : t.offset = t'.offset
  ident : t.ident?.map String.toLower = t'.ident?.map String.toLower

structure Source.Twin (src src' : Source) : Prop where
  text : Text.lower src.text = Text.lower src'.text
  dialect : src.dialect = src'.dialect

abbrev Twins : List Token → List Token → Prop := List.Forall₂ Token.Twin

namespace Token.Twin

variable {t t' : Token}

theorem upper (h : t.Twin t') : Text.upper t.text = Text.upper t'.text := by
  rw [← Text.upper_lower, h.text, Text.upper_lower]

theorem keyword (h : t.Twin t') : t.keyword = t'.keyword := by
  rw [Token.keyword, Token.keyword, h.kind, h.upper]

theorem isWord (h : t.Twin t') (word : String) : t.isWord word = t'.isWord word := by
  rw [Token.isWord, Token.isWord, h.kind, h.upper]

theorem isPunct (h : t.Twin t') {c : Char} (hc : c.isAlpha = false) :
    t.isPunct c = t'.isPunct c := by
  have hhead : (t.text.head? == some c) = (t'.text.head? == some c) := by
    rw [Bool.eq_iff_iff, beq_iff_eq, beq_iff_eq, ← Text.head?_lower hc, h.text, Text.head?_lower hc]
  rw [Token.isPunct, Token.isPunct, h.kind, hhead]

theorem stop (h : t.Twin t') : t.stop = t'.stop := by
  rw [Token.stop, Token.stop, h.offset, ← Text.width_lower, h.text, Text.width_lower]

theorem endsElement (h : t.Twin t') : Parser.endsElement t = Parser.endsElement t' := by
  rw [Parser.endsElement, Parser.endsElement, h.isPunct rfl, h.isPunct rfl]

theorem depthAfter (h : t.Twin t') (depth : Nat) :
    Parser.depthAfter depth t = Parser.depthAfter depth t' := by
  rw [Parser.depthAfter, Parser.depthAfter, h.isPunct rfl, h.isPunct rfl]

end Token.Twin

namespace Parser

variable {α β γ δ σ : Type}

/-! ### Runs -/

/-- Two runs end alike: with results that look the same under a view and the same tokens left, or
with objections at the same place. -/
inductive SameEnd (f : α → γ) :
    Except Complaint (α × List Token) → Except Complaint (α × List Token) → Prop
  | ok {a b ts ts'} : f a = f b → Twins ts ts' → SameEnd f (.ok (a, ts)) (.ok (b, ts'))
  | error {e e'} : e.token.map (·.offset) = e'.token.map (·.offset) → SameEnd f (.error e) (.error e')

def Alike (f : α → γ) (p q : Parser α) : Prop :=
  ∀ src src' ts ts', src.Twin src' → Twins ts ts' → SameEnd f (p src ts) (q src' ts')

theorem Twins.offset_head? {ts ts' : List Token} (h : Twins ts ts') :
    ts.head?.map (·.offset) = ts'.head?.map (·.offset) := by
  cases h with
  | nil => rfl
  | cons ht _ => exact congrArg some ht.offset

namespace Alike

variable {f : α → γ} {g : β → δ} {p q : Parser α}

theorem pure {a b : α} (h : f a = f b) : Alike f (pure a) (pure b) :=
  fun _ _ _ _ _ hts => .ok h hts

theorem fail (problem problem' : Problem) : Alike f (fail problem) (fail problem') :=
  fun _ _ _ _ _ hts => .error (Twins.offset_head? hts)

theorem bind {k k' : α → Parser β} (hp : Alike f p q) (hk : ∀ a b, f a = f b → Alike g (k a) (k' b)) :
    Alike g (p >>= k) (q >>= k') := by
  intro src src' ts ts' hsrc hts
  have hrun := hp src src' ts ts' hsrc hts
  rw [bind_eq, bind_eq]
  generalize p src ts = r, q src' ts' = r' at hrun
  cases hrun with
  | ok hresult hrest => exact hk _ _ hresult src src' _ _ hsrc hrest
  | error he => exact .error he

/-- The first results are equal. -/
theorem same {k k' : α → Parser β} (hp : Alike id p q) (hk : ∀ a, Alike g (k a) (k' a)) :
    Alike g (p >>= k) (q >>= k') :=
  hp.bind fun a b hab => by
    obtain rfl : a = b := hab
    exact hk a

theorem ite {c c' : Prop} [Decidable c] [Decidable c'] {p' q' : Parser α} (hc : c ↔ c')
    (hp : Alike f p p') (hq : Alike f q q') : Alike f (if c then p else q) (if c' then p' else q') := by
  by_cases h : c
  · rwa [if_pos h, if_pos (hc.1 h)]
  · rwa [if_neg h, if_neg fun h' => h (hc.2 h')]

theorem map {k k' : α → β} (hp : Alike f p q) (hk : ∀ a b, f a = f b → g (k a) = g (k' b)) :
    Alike g (k <$> p) (k' <$> q) :=
  hp.bind fun a b hab => .pure (hk a b hab)

theorem imp {f' : α → δ} (hp : Alike f p q) (h : ∀ a b, f a = f b → f' a = f' b) : Alike f' p q := by
  intro src src' ts ts' hsrc hts
  have hrun := hp src src' ts ts' hsrc hts
  generalize p src ts = r, q src' ts' = r' at hrun ⊢
  cases hrun with
  | ok hresult hrest => exact .ok (h _ _ hresult) hrest
  | error he => exact .error he

theorem discard (hp : Alike f p q) : Alike id (discard p) (discard q) :=
  hp.bind fun _ _ _ => .pure rfl

/-- Steps that keep the states alike. -/
theorem many {f : σ → γ} {step step' : σ → Parser (Option σ)} {s s' : σ}
    (hstep : ∀ s s', f s = f s' → Alike (Option.map f) (step s) (step' s')) (hs : f s = f s') :
    Alike f (many step s) (many step' s') := by
  intro src src' ts
  induction ts using (measure List.length).wf.induction generalizing s s' with
  | h ts ih =>
    intro ts' hsrc hts
    have hrun := hstep s s' hs src src' ts ts' hsrc hts
    rw [Parser.many, Parser.many]
    generalize step s src ts = r, step' s' src' ts' = r' at hrun
    cases hrun with
    | error he => exact .error he
    | @ok next next' rest rest' hresult hrest =>
      cases next with
      | none =>
        cases next' with
        | none => exact .ok hs hrest
        | some t' => contradiction
      | some t =>
        cases next' with
        | none => contradiction
        | some t' =>
          have ht : f t = f t' := Option.some.inj hresult
          simp only [← hts.length_eq, ← hrest.length_eq]
          split
          case isTrue hlt => exact ih rest hlt ht rest' hsrc hrest
          case isFalse => exact .ok ht hrest

/-- Steps of which the states are equal. -/
theorem manySame {step step' : σ → Parser (Option σ)} (hstep : ∀ s, Alike id (step s) (step' s))
    (s : σ) : Alike id (Parser.many step s) (Parser.many step' s) := by
  refine .many (fun s s' hs => ?_) rfl
  obtain rfl : s = s' := hs
  exact (hstep s).imp fun _ _ h => congrArg (Option.map id) h

end Alike

/-! ### Looking -/

theorem alike_source : Alike (fun src => src.dialect) source source :=
  fun _ _ _ _ hsrc hts => .ok hsrc.dialect hts

theorem Alike.tokens {g : β → δ} {k k' : List Token → Parser β}
    (hk : ∀ ts ts', Twins ts ts' → Alike g (k ts) (k' ts')) :
    Alike g (tokens >>= k) (tokens >>= k') :=
  fun _ _ ts ts' hsrc hts => hk ts ts' hts _ _ ts ts' hsrc hts

theorem Twins.getElem? {ts ts' : List Token} (h : Twins ts ts') (n : Nat) :
    Option.Rel Token.Twin ts[n]? ts'[n]? := by
  induction h generalizing n with
  | nil => exact .none
  | cons ht _ ih =>
    cases n with
    | zero => exact .some ht
    | succ n => exact ih n

theorem Alike.peekAt {g : β → δ} {k k' : Option Token → Parser β} (n : Nat)
    (hk : ∀ t t', Option.Rel Token.Twin t t' → Alike g (k t) (k' t')) :
    Alike g (peekAt n >>= k) (peekAt n >>= k') :=
  fun _ _ ts ts' hsrc hts => hk _ _ (Twins.getElem? hts n) _ _ ts ts' hsrc hts

theorem Alike.peek {g : β → δ} {k k' : Option Token → Parser β}
    (hk : ∀ t t', Option.Rel Token.Twin t t' → Alike g (k t) (k' t')) :
    Alike g (peek >>= k) (peek >>= k') := by
  intro src src' ts ts' hsrc hts
  refine hk ts.head? ts'.head? ?_ src src' ts ts' hsrc hts
  rw [List.head?_eq_getElem?, List.head?_eq_getElem?]
  exact Twins.getElem? hts 0

theorem alike_peekKeyword : Alike id peekKeyword peekKeyword := by
  intro src src' ts ts' _ hts
  refine .ok ?_ hts
  cases hts with
  | nil => rfl
  | cons ht _ => exact ht.keyword

theorem alike_peekIsPunct {c : Char} (hc : c.isAlpha = false) :
    Alike id (peekIsPunct c) (peekIsPunct c) := by
  intro src src' ts ts' _ hts
  refine .ok ?_ hts
  cases hts with
  | nil => rfl
  | cons ht _ => exact ht.isPunct hc

theorem alike_advance : Alike id advance advance := by
  intro src src' ts ts' _ hts
  refine .ok rfl ?_
  cases hts with
  | nil => exact .nil
  | cons _ hts => exact hts

/-! ### Keywords and punctuation -/

theorem startsWith_twins {ts ts' : List Token} (h : Twins ts ts') (words : List String) :
    startsWith words ts = startsWith words ts' := by
  induction h generalizing words with
  | nil => rfl
  | cons ht _ ih =>
    cases words with
    | nil => rfl
    | cons w ws => rw [startsWith, startsWith, ht.isWord, ih]

theorem alike_eatWords (words : List String) : Alike id (eatWords words) (eatWords words) := by
  intro src src' ts ts' _ hts
  rw [eatWords, eatWords, startsWith_twins hts]
  split
  · exact .ok rfl (List.forall₂_drop _ hts)
  · exact .ok rfl hts

theorem alike_eatWord (word : String) : Alike id (eatWord word) (eatWord word) :=
  alike_eatWords [word]

theorem alike_eatAny (words : List String) : Alike id (eatAny words) (eatAny words) := by
  intro src src' ts ts' _ hts
  cases hts with
  | nil => exact .ok rfl .nil
  | cons ht hts =>
    rw [eatAny, eatAny]
    simp only [ht.keyword]
    split
    · exact .ok rfl hts
    · exact .ok rfl (.cons ht hts)

theorem alike_expectWords (words : List String) :
    Alike id (expectWords words) (expectWords words) :=
  (alike_eatWords words).same fun _ => .ite Iff.rfl (.pure rfl) (.fail _ _)

theorem alike_expectWord (word : String) : Alike id (expectWord word) (expectWord word) :=
  alike_expectWords [word]

theorem alike_eatPunct {c : Char} (hc : c.isAlpha = false) : Alike id (eatPunct c) (eatPunct c) := by
  intro src src' ts ts' _ hts
  cases hts with
  | nil => exact .ok rfl .nil
  | cons ht hts =>
    rw [eatPunct, eatPunct]
    simp only [ht.isPunct hc]
    split
    · exact .ok rfl hts
    · exact .ok rfl (.cons ht hts)

theorem alike_expectPunct {c : Char} (hc : c.isAlpha = false) :
    Alike id (expectPunct c) (expectPunct c) :=
  (alike_eatPunct hc).same fun _ => .ite Iff.rfl (.pure rfl) (.fail _ _)

/-! ### Names -/

theorem alike_ident : Alike String.toLower ident ident := by
  intro src src' ts ts' _ hts
  cases hts with
  | nil => exact .error rfl
  | @cons t t' _ _ ht hts =>
    have hident := ht.ident
    rw [ident, ident]
    cases h : t.ident? with
    | none =>
      rw [h, Option.map_none, eq_comm, Option.map_eq_none_iff] at hident
      simp only [hident]
      exact .error (congrArg some ht.offset)
    | some name =>
      rw [h, Option.map_some, eq_comm, Option.map_eq_some_iff] at hident
      obtain ⟨name', hname', hsame⟩ := hident
      simp only [hname']
      exact .ok hsame.symm hts

theorem alike_objectName : Alike String.toLower objectName objectName := by
  refine alike_ident.bind fun _ _ hname => .many (fun _ _ _ => ?_) hname
  exact (alike_eatPunct rfl).same fun _ => .ite Iff.rfl
    (alike_ident.map fun _ _ h => congrArg some h) (.pure rfl)

/-! ### Parentheses and elements -/

theorem closing?_twins {ts ts' : List Token} (h : Twins ts ts') (depth : Nat) :
    Option.Rel (fun a b => a.1.Twin b.1 ∧ Twins a.2 b.2) (closing? depth ts) (closing? depth ts') := by
  induction h generalizing depth with
  | nil => exact .none
  | cons ht hts ih =>
    unfold closing?
    simp only [ht.isPunct (c := '(') rfl, ht.isPunct (c := ')') rfl]
    split
    · exact ih _
    · split
      · cases depth with
        | zero => exact .some ⟨ht, hts⟩
        | succ depth => exact ih depth
      · exact ih depth

theorem alike_parenthesized : Alike Text.lower parenthesized parenthesized := by
  intro src src' ts ts' hsrc hts
  cases hts with
  | nil => exact .error rfl
  | @cons t t' rest rest' ht hts =>
    have hclosing := closing?_twins hts 0
    rw [parenthesized, parenthesized]
    simp only [ht.isPunct (c := '(') rfl]
    split
    · generalize closing? 0 rest = r, closing? 0 rest' = r' at hclosing
      cases hclosing with
      | none => exact .error (congrArg some ht.offset)
      | some h =>
        refine .ok ?_ h.2
        rw [← Text.trim_lower, ← Text.trim_lower, ← Text.slice_lower, ← Text.slice_lower, ht.stop,
          h.1.offset, hsrc.text]
    · exact .error (congrArg some ht.offset)

theorem alike_skipParenthesized : Alike id skipParenthesized skipParenthesized :=
  (alike_peekIsPunct rfl).same fun _ => .ite Iff.rfl alike_parenthesized.discard (.pure rfl)

theorem elementRest_twins {ts ts' : List Token} (h : Twins ts ts') (depth : Nat) :
    Twins (elementRest depth ts) (elementRest depth ts') := by
  induction h generalizing depth with
  | nil => exact .nil
  | cons ht hts ih =>
    rw [elementRest, elementRest, ht.endsElement, ht.depthAfter]
    split
    · exact .cons ht hts
    · exact ih _

theorem alike_skipElement : Alike id skipElement skipElement :=
  fun _ _ _ _ _ hts => .ok rfl (elementRest_twins hts 0)

theorem takeDefault_twins {ts ts' : List Token} (h : Twins ts ts') (depth : Nat) (first : Bool) :
    Twins (takeDefault depth first ts).1 (takeDefault depth first ts').1 ∧
      Twins (takeDefault depth first ts).2 (takeDefault depth first ts').2 := by
  induction h generalizing depth first with
  | nil => exact ⟨.nil, .nil⟩
  | cons ht hts ih =>
    obtain ⟨htaken, hrest⟩ := ih (depthAfter depth _) false
    rw [takeDefault, takeDefault]
    simp only [ht.endsElement, ht.keyword, ht.depthAfter] at htaken hrest ⊢
    split
    · exact ⟨.nil, .cons ht hts⟩
    · exact ⟨.cons ht htaken, hrest⟩

theorem Twins.getLast {ts ts' : List Token} (h : Twins ts ts') (hne : ts ≠ []) (hne' : ts' ≠ []) :
    (ts.getLast hne).Twin (ts'.getLast hne') := by
  induction h with
  | nil => contradiction
  | cons ht hts ih =>
    cases hts with
    | nil => exact ht
    | cons hu hts => exact ih (by simp) (by simp)

theorem alike_defaultExpression : Alike Text.lower defaultExpression defaultExpression := by
  intro src src' ts ts' hsrc hts
  obtain ⟨htaken, hrest⟩ := takeDefault_twins hts 0 true
  rw [defaultExpression, defaultExpression]
  generalize takeDefault 0 true ts = r, takeDefault 0 true ts' = r' at htaken hrest
  obtain ⟨taken, rest⟩ := r
  obtain ⟨taken', rest'⟩ := r'
  cases htaken with
  | nil => exact .error (Twins.offset_head? hts)
  | cons ht htaken =>
    refine .ok ?_ hrest
    rw [← Text.slice_lower, ← Text.slice_lower, hsrc.text, ht.offset,
      (Twins.getLast (.cons ht htaken) _ _).stop]

/-! ### Numbers -/

theorem clamped_twins {t t' : Token} (h : t.Twin t') (negative : Bool) :
    clamped negative t.text = clamped negative t'.text := by
  rw [clamped, clamped, ← Text.natural?_lower, h.text, Text.natural?_lower]

theorem alike_signedNumber : Alike id signedNumber signedNumber := by
  -- the digits are read in the same way behind either sign and behind none
  refine (alike_eatPunct rfl).same fun negative => .ite Iff.rfl ?_
    ((alike_eatPunct rfl).discard.same fun _ => ?_)
  all_goals
    refine .tokens fun ts ts' hts => ?_
    cases hts with
    | nil => exact .fail _ _
    | @cons t t' rest rest' ht hts =>
      have hpoint : '.' ∈ t.text ↔ '.' ∈ t'.text := by
        rw [← Text.mem_lower rfl, ht.text, Text.mem_lower rfl]
      have hexponent : rest.head?.any (fun u => u.kind == .word && u.offset == t.stop) =
          rest'.head?.any (fun u => u.kind == .word && u.offset == t'.stop) := by
        cases hts with
        | nil => rfl
        | cons hu _ => simp only [List.head?_cons, Option.any_some, hu.kind, hu.offset, ht.stop]
      refine .ite (by rw [ht.kind]) (.fail _ _) (.ite (by rw [hpoint, hexponent]) (.fail _ _) ?_)
      exact alike_advance.same fun _ => .pure (clamped_twins ht negative)

/-! ### The rest of the text -/

theorem alike_remainder : Alike Text.lower remainder remainder := by
  intro src src' ts ts' hsrc hts
  cases hts with
  | nil => exact .ok rfl .nil
  | cons ht hts =>
    refine .ok ?_ .nil
    rw [← Text.trim_lower, ← Text.trim_lower, ← Text.dropBytes_lower, ← Text.dropBytes_lower,
      ht.offset, hsrc.text]

theorem alike_columnList :
    Alike (List.map String.toLower) columnList columnList := by
  have hcolumn : Alike String.toLower
      (do
        let name ← ident
        skipParenthesized
        discard (eatAny ["ASC", "DESC"])
        return name)
      (do
        let name ← ident
        skipParenthesized
        discard (eatAny ["ASC", "DESC"])
        return name) :=
    alike_ident.bind fun _ _ hname => alike_skipParenthesized.same fun _ =>
      (alike_eatAny _).discard.same fun _ => .pure hname
  refine (alike_expectPunct rfl).same fun _ => hcolumn.bind fun _ _ hfirst => ?_
  refine Alike.bind (f := List.map String.toLower) (.many (fun names names' hnames => ?_) ?_)
    fun names names' hnames => (alike_expectPunct rfl).same fun _ => .pure hnames
  · refine (alike_eatPunct rfl).same fun _ => .ite Iff.rfl (hcolumn.bind fun a b hab => .pure ?_)
      (.pure rfl)
    simp [hnames, hab]
  · simp [hfirst]

end Parser

end DdlBridge
