import DdlBridge.Proofs.Grammar.Phrase
import DdlBridge.Proofs.Token.Gap

/-!
# Counting parentheses

Three readers count the parentheses they are inside of: one reads a text in parentheses, one steps over
a table element, one reads a default value. They are counted right on every list of tokens, balanced or
not: none of the readers counts down from zero (`Counted`), and the count is back at zero exactly behind
tokens whose parentheses match (`matched_iff`). So what each reader takes is known without its count
(`parentheses_exact`).
-/

namespace DdlBridge

open Text

namespace Parser

variable {depth : Nat} {t opening close : Token} {ts taken rest front inner more : List Token}

/-! ### Matching parentheses -/

/-- Tokens in which each parenthesis has its other one. -/
inductive Matched : List Token → Prop where
  | nil : Matched []
  | other {t : Token} {ts : List Token} (hopen : t.isPunct '(' = false)
      (hclose : t.isPunct ')' = false) (h : Matched ts) : Matched (t :: ts)
  | group {opening close : Token} {inner ts : List Token} (hopen : opening.isPunct '(' = true)
      (hinner : Matched inner) (hclose : close.isPunct ')' = true) (h : Matched ts) :
      Matched (opening :: (inner ++ close :: ts))

theorem Matched.append (hfront : Matched front) (h : Matched ts) : Matched (front ++ ts) := by
  induction hfront with
  | nil => exact h
  | other hopen hclose _ ih => exact .other hopen hclose ih
  | group hopen hinner hclose _ _ ih =>
    rw [List.cons_append, List.append_assoc, List.cons_append]
    exact .group hopen hinner hclose ih

theorem not_open_of_close (h : t.isPunct ')' = true) : t.isPunct '(' = false := by
  simp only [Token.isPunct, Bool.and_eq_true, beq_iff_eq] at h
  simp [Token.isPunct, h.2]

theorem depthAfter_open (h : t.isPunct '(' = true) : depthAfter depth t = depth + 1 := if_pos h

theorem depthAfter_close (h : t.isPunct ')' = true) : depthAfter depth t = depth - 1 := by
  simp [depthAfter, not_open_of_close h, h]

theorem depthAfter_other (hopen : t.isPunct '(' = false) (hclose : t.isPunct ')' = false) :
    depthAfter depth t = depth := by
  simp [depthAfter, hopen, hclose]

theorem endsElement_of_close (h : t.isPunct ')' = true) : endsElement t = true := by
  simp [endsElement, h]

/-- Whoever reads these tokens at this depth never counts down from zero. -/
def Counted : Nat → List Token → Prop
  | _, [] => True
  | depth, t :: ts => (t.isPunct ')' = true → depth ≠ 0) ∧ Counted (depthAfter depth t) ts

theorem counted_append : Counted depth (front ++ ts) ↔
    Counted depth front ∧ Counted (front.foldl depthAfter depth) ts := by
  induction front generalizing depth with
  | nil => simp [Counted]
  | cons t front ih =>
    rw [List.cons_append, Counted, Counted, ih, and_assoc]
    rfl

theorem counted_of_forall (h : ∀ front t back, ts = front ++ t :: back → t.isPunct ')' = true →
    front.foldl depthAfter depth ≠ 0) : Counted depth ts := by
  induction ts generalizing depth with
  | nil => trivial
  | cons t ts ih =>
    refine ⟨h [] t ts rfl, ih fun front u back hsplit => ?_⟩
    exact h (t :: front) u back (by rw [hsplit]; rfl)

/-- Behind matching parentheses the depth is what it was. -/
theorem Matched.counted (h : Matched ts) (depth : Nat) :
    Counted depth ts ∧ ts.foldl depthAfter depth = depth := by
  induction h generalizing depth with
  | nil => exact ⟨trivial, rfl⟩
  | other hopen hclose _ ih =>
    rw [Counted, List.foldl_cons, depthAfter_other hopen hclose]
    exact ⟨⟨fun h => absurd h (by simp [hclose]), (ih depth).1⟩, (ih depth).2⟩
  | @group opening close inner ts hopen _ hclose _ ihinner ih =>
    obtain ⟨hinner, hback⟩ := ihinner (depth + 1)
    have hdown : depthAfter (depth + 1) close = depth := depthAfter_close hclose
    rw [Counted, counted_append, Counted, List.foldl_cons, List.foldl_append, List.foldl_cons,
      depthAfter_open hopen, hback, hdown]
    refine ⟨⟨fun h => ?_, hinner, fun _ => depth.succ_ne_zero, (ih depth).1⟩, (ih depth).2⟩
    exact absurd hopen (by simp [not_open_of_close h])

/-- Tokens that close this many parentheses that are open in front of them, and all they open. -/
inductive Unwinds : Nat → List Token → Prop where
  | matched {ts : List Token} (h : Matched ts) : Unwinds 0 ts
  | close {depth : Nat} {close : Token} {inner ts : List Token} (hinner : Matched inner)
      (hclose : close.isPunct ')' = true) (h : Unwinds depth ts) :
      Unwinds (depth + 1) (inner ++ close :: ts)

theorem Unwinds.behind (hfront : Matched front) (h : Unwinds depth ts) :
    Unwinds depth (front ++ ts) := by
  cases h with
  | matched h => exact .matched (hfront.append h)
  | close hinner hclose h =>
    rw [← List.append_assoc]
    exact .close (hfront.append hinner) hclose h

theorem unwinds_of_counted (hcounted : Counted depth ts) (hdepth : ts.foldl depthAfter depth = 0) :
    Unwinds depth ts := by
  induction ts generalizing depth with
  | nil =>
    obtain rfl : depth = 0 := hdepth
    exact .matched .nil
  | cons t ts ih =>
    obtain ⟨hpositive, hcounted⟩ := hcounted
    have hrest := ih hcounted hdepth
    by_cases hopen : t.isPunct '(' = true
    · -- The rest closes this parenthesis first, and is a group with it up to there.
      rw [depthAfter_open hopen] at hrest
      obtain - | @⟨_, close, inner, ts, hinner, hclose, hrest⟩ := hrest
      have hgroup : Matched (t :: (inner ++ [close])) := .group hopen hinner hclose .nil
      simpa using hrest.behind hgroup
    rw [Bool.not_eq_true] at hopen
    by_cases hclose : t.isPunct ')' = true
    · obtain ⟨depth, rfl⟩ := Nat.exists_eq_succ_of_ne_zero (hpositive hclose)
      rw [depthAfter_close hclose] at hrest
      exact .close .nil hclose hrest
    · rw [Bool.not_eq_true] at hclose
      rw [depthAfter_other hopen hclose] at hrest
      exact hrest.behind (.other hopen hclose .nil)

/-- The depth is zero again just behind tokens whose parentheses match. -/
theorem matched_iff (h : Counted 0 ts) : Matched ts ↔ ts.foldl depthAfter 0 = 0 := by
  refine ⟨fun hmatched => (hmatched.counted 0).2, fun hdepth => ?_⟩
  cases unwinds_of_counted h hdepth with
  | matched hmatched => exact hmatched

/-! ### Up to the first stop -/

variable {stops : List Token → Token → Prop}

/-- `taken` is the longest front part of `ts` without a token to stop at. Which tokens those are may
depend on what stands in front of them. -/
structure UpTo (stops : List Token → Token → Prop) (ts taken rest : List Token) : Prop where
  append : taken ++ rest = ts
  passed : ∀ front t back, taken = front ++ t :: back → ¬ stops front t
  stopped : ∀ t ∈ rest.head?, stops taken t

theorem UpTo.nil : UpTo stops [] [] [] := ⟨rfl, by simp, by simp⟩

theorem UpTo.stop (h : stops [] t) : UpTo stops (t :: ts) [] (t :: ts) :=
  ⟨rfl, by simp, by simpa using h⟩

theorem UpTo.pass (hpass : ¬ stops [] t) (h : UpTo (fun front => stops (t :: front)) ts taken rest) :
    UpTo stops (t :: ts) (t :: taken) rest := by
  refine ⟨congrArg (t :: ·) h.append, fun front u back hsplit => ?_, h.stopped⟩
  cases front with
  | nil =>
    obtain ⟨rfl, -⟩ := List.cons.inj hsplit
    exact hpass
  | cons v front =>
    obtain ⟨rfl, hrest⟩ := List.cons.inj hsplit
    exact h.passed front u back hrest

/-- Where a closing parenthesis at depth zero is one of the tokens to stop at, the depth is counted
right up to the stop. -/
theorem UpTo.matched {ends : List Token → Token → Prop}
    (h : UpTo (fun front t => front.foldl depthAfter 0 = 0 ∧ ends front t) ts taken rest)
    (hends : ∀ front t, t.isPunct ')' = true → ends front t) :
    Counted 0 taken ∧ UpTo (fun front t => Matched front ∧ ends front t) ts taken rest := by
  have hcounted : Counted 0 taken := counted_of_forall fun front t back hsplit hclose hzero =>
    h.passed front t back hsplit ⟨hzero, hends front t hclose⟩
  refine ⟨hcounted, h.append, fun front t back hsplit hstop => ?_, fun t ht => ?_⟩
  · exact h.passed front t back hsplit ⟨(hstop.1.counted 0).2, hstop.2⟩
  · exact (h.stopped t ht).imp_left (matched_iff hcounted).2

theorem elementRest_upTo (depth : Nat) (ts : List Token) : ∃ taken,
    UpTo (fun front t => front.foldl depthAfter depth = 0 ∧ endsElement t = true) ts taken
      (elementRest depth ts) := by
  induction ts generalizing depth with
  | nil => exact ⟨[], .nil⟩
  | cons t ts ih =>
    unfold elementRest
    split
    case isTrue hstop => exact ⟨[], .stop hstop⟩
    case isFalse hpass =>
      obtain ⟨taken, h⟩ := ih (depthAfter depth t)
      exact ⟨t :: taken, .pass hpass h⟩

theorem takeDefault_upTo (depth : Nat) (first : Bool) (ts : List Token) :
    UpTo (fun front t => front.foldl depthAfter depth = 0 ∧
        (endsElement t = true ∨ (front ≠ [] ∨ first = false) ∧ t.keyword ∈ columnKeywords))
      ts (takeDefault depth first ts).1 (takeDefault depth first ts).2 := by
  induction ts generalizing depth first with
  | nil => exact .nil
  | cons t ts ih =>
    unfold takeDefault
    split
    case isTrue hstop => exact .stop (by simpa using hstop)
    case isFalse hpass =>
      refine .pass (by simpa using hpass) ?_
      simpa using ih (depthAfter depth t) false

/-! ### The parenthesis that closes a group -/

/-- Behind an opening parenthesis: the one that closes it stands behind `inner`. -/
structure ClosedBehind (ts inner : List Token) (close : Token) (rest : List Token) : Prop where
  append : inner ++ close :: rest = ts
  matched : Matched inner
  closes : close.isPunct ')' = true

theorem closing?_open (h : t.isPunct '(' = true) :
    closing? depth (t :: ts) = closing? (depth + 1) ts := by
  rw [closing?.eq_def]
  exact if_pos h

theorem closing?_other (hopen : t.isPunct '(' = false) (hclose : t.isPunct ')' = false) :
    closing? depth (t :: ts) = closing? depth ts := by
  rw [closing?.eq_def]
  simp [hopen, hclose]

theorem closing?_close (h : t.isPunct ')' = true) : closing? 0 (t :: ts) = some (t, ts) ∧
    ∀ depth, closing? (depth + 1) (t :: ts) = closing? depth ts := by
  simp [closing?, not_open_of_close h, h]

theorem Matched.closing? (h : Matched front) (depth : Nat) (more : List Token) :
    closing? depth (front ++ more) = closing? depth more := by
  induction h generalizing depth more with
  | nil => rfl
  | other hopen hclose _ ih => rw [List.cons_append, closing?_other hopen hclose, ih]
  | group hopen _ hclose _ ihinner ih =>
    rw [List.cons_append, closing?_open hopen, List.append_assoc, ihinner, List.cons_append,
      (closing?_close hclose).2, ih]

theorem ClosedBehind.closing? (h : ClosedBehind ts inner close rest) :
    closing? 0 ts = some (close, rest) := by
  rw [← h.append, h.matched.closing?, (closing?_close h.closes).1]

theorem read_of_closing? (h : closing? depth ts = some (close, rest)) : ∃ inner,
    inner ++ close :: rest = ts ∧ close.isPunct ')' = true ∧ Counted depth inner ∧
      inner.foldl depthAfter depth = 0 := by
  fun_induction Parser.closing? depth ts with
  | case1 => contradiction
  | case2 depth t ts hopen ih =>
    obtain ⟨inner, rfl, hclose, hcounted, hdepth⟩ := ih h
    rw [← depthAfter_open hopen] at hcounted hdepth
    refine ⟨t :: inner, rfl, hclose, ⟨fun h => ?_, hcounted⟩, hdepth⟩
    exact absurd hopen (by simp [not_open_of_close h])
  | case3 t ts _ hclose =>
    obtain ⟨rfl, rfl⟩ := Prod.mk.inj (Option.some.inj h)
    exact ⟨[], rfl, hclose, trivial, rfl⟩
  | case4 t ts _ hdown depth ih =>
    obtain ⟨inner, rfl, hclose, hcounted, hdepth⟩ := ih h
    have hafter : depthAfter (depth + 1) t = depth := depthAfter_close hdown
    rw [← hafter] at hcounted hdepth
    exact ⟨t :: inner, rfl, hclose, ⟨fun _ => depth.succ_ne_zero, hcounted⟩, hdepth⟩
  | case5 depth t ts hopen hdown ih =>
    obtain ⟨inner, rfl, hclose, hcounted, hdepth⟩ := ih h
    rw [Bool.not_eq_true] at hopen hdown
    have hafter : depthAfter depth t = depth := depthAfter_other hopen hdown
    rw [← hafter] at hcounted hdepth
    exact ⟨t :: inner, rfl, hclose, ⟨fun h => absurd h (by simp [hdown]), hcounted⟩, hdepth⟩

theorem closedBehind_of_closing? (h : closing? 0 ts = some (close, rest)) :
    ∃ inner, ClosedBehind ts inner close rest := by
  obtain ⟨inner, happend, hclose, hcounted, hdepth⟩ := read_of_closing? h
  exact ⟨inner, happend, (matched_iff hcounted).2 hdepth, hclose⟩

/-- A reader that finds no closing parenthesis counts one more open than the search does. -/
theorem counted_of_closing?_eq_none (h : closing? depth ts = none) : Counted (depth + 1) ts := by
  fun_induction Parser.closing? depth ts with
  | case1 => trivial
  | case2 depth t ts hopen ih =>
    refine ⟨fun _ => depth.succ_ne_zero, ?_⟩
    rw [depthAfter_open hopen]
    exact ih h
  | case3 => contradiction
  | case4 t ts _ hdown depth ih =>
    refine ⟨fun _ => (depth + 1).succ_ne_zero, ?_⟩
    rw [depthAfter_close hdown]
    exact ih h
  | case5 depth t ts hopen hdown ih =>
    rw [Bool.not_eq_true] at hopen hdown
    refine ⟨fun _ => depth.succ_ne_zero, ?_⟩
    rw [depthAfter_other hopen hdown]
    exact ih h

theorem ClosedBehind.counted (h : ClosedBehind ts inner close rest)
    (hopen : opening.isPunct '(' = true) : Counted 0 (opening :: (inner ++ [close])) :=
  ((Matched.group hopen h.matched h.closes .nil).counted 0).1

theorem parenthesized_of_not_closed {src : Source} (hopen : opening.isPunct '(' = true)
    (h : ¬ ∃ inner close rest, ClosedBehind more inner close rest) :
    parenthesized src (opening :: more) = .error ⟨.unbalanced, some opening⟩ ∧
      Counted 0 (opening :: more) := by
  have hnone : closing? 0 more = none := by
    refine Option.eq_none_iff_forall_not_mem.2 fun ⟨close, rest⟩ hclosing => h ?_
    obtain ⟨inner, hclosed⟩ := closedBehind_of_closing? hclosing
    exact ⟨inner, close, rest, hclosed⟩
  constructor
  · simp only [parenthesized, hopen, if_true, hnone]
  · rw [Counted, depthAfter_open hopen]
    exact ⟨fun hclose => absurd hopen (by simp [not_open_of_close hclose]),
      counted_of_closing?_eq_none hnone⟩

end Parser

/-! ### Parts of the text -/

variable {d : Dialect} {text : List Char} {t u : Token} {front back inner taken ts : List Token}

/-- A part of the text starts at byte `start` and ends at byte `stop`. -/
def InRange (text : List Char) (start stop : Nat) : Prop :=
  ∃ before after, text = before ++ (slice start stop text ++ after) ∧ width before = start ∧
    start + width (slice start stop text) = stop

theorem inRange_append (before part after : List Char) :
    InRange (before ++ (part ++ after)) (width before) (width before + width part) := by
  rw [InRange, slice_width_append]
  exact ⟨before, after, rfl, rfl, rfl⟩

theorem Lexer.Woven.split {rules : LexicalRules} {n : Nat} {cs : List Char}
    (h : Woven rules n cs (front ++ t :: back)) : ∃ before after, cs = before ++ (t.text ++ after) ∧
      t.offset = n + width before ∧ Woven rules t.stop after back := by
  induction front generalizing n cs with
  | nil =>
    obtain - | @⟨_, gap, rest, _, _, _, hoffset, _, _, _, hrest⟩ := h
    exact ⟨gap, rest, List.append_assoc _ _ _, hoffset, hrest⟩
  | cons v front ih =>
    obtain - | @⟨_, gap, rest, _, _, _, hoffset, _, _, _, hrest⟩ := h
    obtain ⟨before, after, rfl, hbefore, hback⟩ := ih hrest
    refine ⟨gap ++ v.text ++ before, after, by simp, ?_, hback⟩
    rw [hbefore, Token.stop, hoffset, width_append, width_append]
    omega

theorem woven_tokenize (h : ts = tokenize d text) : Lexer.Woven d.rules 0 text ts :=
  h ▸ Lexer.woven_tokensFrom d.rules 0 text

/-- A token and a later one: the text between them, and the text from the one to the other. -/
theorem inRange_of_pair (h : front ++ t :: (inner ++ u :: back) = tokenize d text) :
    InRange text t.stop u.offset ∧ InRange text t.offset u.stop := by
  obtain ⟨before, after, rfl, ht, hback⟩ := (woven_tokenize h).split
  obtain ⟨between, after, rfl, hu, -⟩ := hback.split
  have hbetween := inRange_append (before ++ t.text) between (u.text ++ after)
  have hwhole := inRange_append before (t.text ++ (between ++ u.text)) after
  rw [Nat.zero_add] at ht
  constructor
  · rw [hu, Token.stop, ht]
    simpa using hbetween
  · rw [Token.stop, hu, Token.stop, ht]
    simpa [Nat.add_assoc] using hwhole

theorem inRange_of_token (h : front ++ t :: back = tokenize d text) :
    InRange text t.offset t.stop := by
  obtain ⟨before, after, htext, ht, -⟩ := (woven_tokenize h).split
  rw [htext, Token.stop, ht, Nat.zero_add]
  exact inRange_append before t.text after

/-- From the first of some tokens to the last. -/
theorem inRange_of_ends (h : taken <:+: tokenize d text) (ht : t ∈ taken.head?)
    (hu : u ∈ taken.getLast?) : InRange text t.offset u.stop := by
  obtain ⟨front, back, hsplit⟩ := h
  obtain ⟨others, rfl⟩ := List.head?_eq_some_iff.1 ht
  rcases List.eq_nil_or_concat others with rfl | ⟨inner, v, rfl⟩
  · obtain rfl := Option.some.inj hu
    have htoken : front ++ t :: back = tokenize d text := by
      rw [← hsplit, List.append_assoc, List.singleton_append]
    exact inRange_of_token htoken
  · rw [List.concat_eq_append] at hsplit hu
    rw [← List.cons_append, List.getLast?_concat] at hu
    obtain rfl := Option.some.inj hu
    have hpair : front ++ t :: (inner ++ v :: back) = tokenize d text := by simp [← hsplit]
    exact (inRange_of_pair hpair).2

namespace Parser

variable {src : Source} {first last : Token}

theorem ClosedBehind.inRange (h : ClosedBehind more inner close rest)
    (htokens : opening :: more <:+: tokenize d text) : InRange text opening.stop close.offset := by
  obtain ⟨front, back, hsplit⟩ := htokens
  have hpair : front ++ opening :: (inner ++ close :: (rest ++ back)) = tokenize d text := by
    simp [← hsplit, ← h.append]
  exact (inRange_of_pair hpair).1

theorem defaultExpression_of_nil (h : (takeDefault 0 true ts).1 = []) :
    defaultExpression src ts = .error ⟨.expectedDefault, ts.head?⟩ := by
  unfold defaultExpression
  split
  case h_1 heq =>
    rw [heq] at h
    contradiction
  case h_2 => rfl

theorem defaultExpression_of_ends (hfirst : first ∈ (takeDefault 0 true ts).1.head?)
    (hlast : last ∈ (takeDefault 0 true ts).1.getLast?) : defaultExpression src ts =
      .ok (slice first.offset last.stop src.text, (takeDefault 0 true ts).2) := by
  unfold defaultExpression
  split
  case h_1 t taken rest heq =>
    rw [heq] at hfirst hlast ⊢
    rw [List.getLast?_eq_some_getLast (List.cons_ne_nil t taken)] at hlast
    obtain rfl := Option.some.inj hfirst
    obtain rfl := Option.some.inj hlast
    rfl
  case h_2 heq =>
    rw [heq] at hfirst
    contradiction

/-- **Parentheses are counted right on every list of tokens.** A text in parentheses is read exactly if
the parenthesis that it starts with is closed; then it is read up to the one that closes it, and what
stands between the two is returned without the white space around it. A table element is stepped over up
to the first `,` or `)` outside of parentheses, and a default value is the longest run of tokens up to
such a token or, behind its first token, to a column keyword outside of parentheses; it is returned as it
is written. None of the readers counts down from zero, and of the tokens of a text none cuts out what is
not a part of the text. -/
theorem parentheses_exact (src : Source) :
    (∀ opening more, opening.isPunct '(' = true →
      (∀ inner close rest, ClosedBehind more inner close rest →
        parenthesized src (opening :: more) =
            .ok (trim (slice opening.stop close.offset src.text), rest) ∧
          Counted 0 (opening :: (inner ++ [close])) ∧
          (opening :: more <:+: tokenize src.dialect src.text →
            InRange src.text opening.stop close.offset)) ∧
      ((¬ ∃ inner close rest, ClosedBehind more inner close rest) →
        parenthesized src (opening :: more) = .error ⟨.unbalanced, some opening⟩ ∧
          Counted 0 (opening :: more))) ∧
    (∀ ts, ∃ taken rest, skipElement src ts = .ok ((), rest) ∧ Counted 0 taken ∧
      UpTo (fun front t => Matched front ∧ endsElement t = true) ts taken rest) ∧
    ∀ ts, ∃ taken rest, Counted 0 taken ∧
      UpTo (fun front t => Matched front ∧
        (endsElement t = true ∨ front ≠ [] ∧ t.keyword ∈ columnKeywords)) ts taken rest ∧
      (taken = [] → defaultExpression src ts = .error ⟨.expectedDefault, ts.head?⟩) ∧
      ∀ first ∈ taken.head?, ∀ last ∈ taken.getLast?,
        defaultExpression src ts = .ok (slice first.offset last.stop src.text, rest) ∧
          (ts <:+: tokenize src.dialect src.text → InRange src.text first.offset last.stop) := by
  refine ⟨fun opening more hopen => ⟨fun inner close rest h => ?_, fun hunclosed => ?_⟩, fun ts => ?_,
    fun ts => ?_⟩
  · refine ⟨parenthesized_of_closing? hopen h.closing?, h.counted hopen, fun htokens => ?_⟩
    exact h.inRange htokens
  · exact parenthesized_of_not_closed hopen hunclosed
  · obtain ⟨taken, h⟩ := elementRest_upTo 0 ts
    obtain ⟨hcounted, hupTo⟩ := h.matched fun _ t hclose => endsElement_of_close hclose
    exact ⟨taken, _, rfl, hcounted, hupTo⟩
  · have h := takeDefault_upTo 0 true ts
    simp only [Bool.true_eq_false, or_false] at h
    obtain ⟨hcounted, hupTo⟩ := h.matched fun _ t hclose => .inl (endsElement_of_close hclose)
    refine ⟨_, _, hcounted, hupTo, defaultExpression_of_nil, fun first hfirst last hlast => ?_⟩
    refine ⟨defaultExpression_of_ends hfirst hlast, fun htokens => ?_⟩
    have htaken : (takeDefault 0 true ts).1 <:+: ts := ⟨[], _, hupTo.append⟩
    exact inRange_of_ends (htaken.trans htokens) hfirst hlast

/-- A group in a group, with a parenthesis too many behind it; one that is not closed; and a default
value with a column keyword inside and one behind. -/
theorem parentheses_exact_nested :
    (parenthesized ⟨"( () ))".toList, .mysql⟩ (tokenize .mysql "( () ))".toList) =
        .ok ("()".toList, [⟨.punct, [')'], 6⟩]) ∧
      InRange "( () ))".toList 1 5) ∧
    parenthesized ⟨"(()".toList, .mysql⟩ (tokenize .mysql "(()".toList) =
      .error ⟨.unbalanced, some ⟨.punct, ['('], 0⟩⟩ ∧
    ∃ (first last : Token) (rest : List Token), defaultExpression ⟨"(NOT a) NULL".toList, .mysql⟩
        (tokenize .mysql "(NOT a) NULL".toList) =
          .ok (slice first.offset last.stop "(NOT a) NULL".toList, rest) ∧
      InRange "(NOT a) NULL".toList first.offset last.stop := by
  refine ⟨?_, ?_, ?_⟩
  · have htokens : tokenize .mysql "( () ))".toList = [⟨.punct, ['('], 0⟩, ⟨.punct, ['('], 2⟩,
        ⟨.punct, [')'], 3⟩, ⟨.punct, [')'], 5⟩, ⟨.punct, [')'], 6⟩] := by
      decide +kernel
    have hclosed : ClosedBehind
        [⟨.punct, ['('], 2⟩, ⟨.punct, [')'], 3⟩, ⟨.punct, [')'], 5⟩, ⟨.punct, [')'], 6⟩]
        [⟨.punct, ['('], 2⟩, ⟨.punct, [')'], 3⟩] ⟨.punct, [')'], 5⟩ [⟨.punct, [')'], 6⟩] :=
      ⟨rfl, .group rfl .nil rfl .nil, rfl⟩
    have hopen : Token.isPunct ⟨.punct, ['('], 0⟩ '(' = true := rfl
    obtain ⟨hread, -, hrange⟩ :=
      ((parentheses_exact ⟨"( () ))".toList, .mysql⟩).1 _ _ hopen).1 _ _ _ hclosed
    rw [htokens]
    exact ⟨hread, hrange (htokens ▸ List.infix_rfl)⟩
  · have htokens : tokenize .mysql "(()".toList =
        [⟨.punct, ['('], 0⟩, ⟨.punct, ['('], 1⟩, ⟨.punct, [')'], 2⟩] := by
      decide +kernel
    rw [htokens]
    refine (((parentheses_exact ⟨"(()".toList, .mysql⟩).1 _ _ rfl).2 ?_).1
    rintro ⟨inner, close, rest, h⟩
    exact Option.some_ne_none _ h.closing?.symm
  · obtain ⟨taken, rest, -, -, hnone, hread⟩ := (parentheses_exact
      ⟨"(NOT a) NULL".toList, .mysql⟩).2.2 (tokenize .mysql "(NOT a) NULL".toList)
    cases taken with
    | nil => exact absurd (hnone rfl) (by decide +kernel)
    | cons first others =>
      obtain ⟨hok, hrange⟩ :=
        hread first rfl _ (List.getLast?_eq_some_getLast (List.cons_ne_nil first others))
      exact ⟨first, _, rest, hok, hrange List.infix_rfl⟩

end Parser

end DdlBridge
