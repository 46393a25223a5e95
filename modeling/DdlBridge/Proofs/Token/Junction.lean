import DdlBridge.Grammar.Parser
import DdlBridge.Proofs.Token.Atom

/-!
# Texts put together

Where a token starts, the text behind is read as if nothing stood in front of it
(`exists_tokensFrom_append`). Between atoms any text may stand whose closing parenthesis is read as
one (`Closes`).
-/

namespace DdlBridge

open Text Lexer Atom

/-- The same token in a text that has `n` more bytes in front. -/
def Token.moved (n : Nat) (t : Token) : Token := { t with offset := n + t.offset }

namespace Lexer

variable {rules : LexicalRules}

theorem tokensFrom_moved (rules : LexicalRules) (k n : Nat) (cs : List Char) :
    tokensFrom rules (k + n) cs = (tokensFrom rules n cs).map (Token.moved k) := by
  induction hlength : cs.length using Nat.strong_induction_on generalizing n cs with
  | h length ih =>
    cases cs with
    | nil => rw [tokensFrom_nil, tokensFrom_nil, List.map_nil]
    | cons c cs =>
      have hlt : (takeSegment rules c cs).2.2.length < length :=
        (length_takeSegment_lt rules c cs).trans_eq hlength
      have hrest := ih _ hlt (n + width (takeSegment rules c cs).2.1) _ rfl
      have htoken : ∀ s : Segment, (Segment.token? { s with offset := k + s.offset }).toList =
          (Segment.token? s).toList.map (Token.moved k) := by
        rintro ⟨kind, text, offset⟩
        cases kind <;> rfl
      rw [tokensFrom_cons, tokensFrom_cons rules n, List.map_append, ← hrest, Nat.add_assoc]
      exact congrArg (· ++ _) (htoken ⟨_, _, n⟩)

theorem le_offset_of_mem_tokensFrom {n : Nat} {cs : List Char} {t : Token}
    (h : t ∈ tokensFrom rules n cs) : n ≤ t.offset := by
  have hmoved := tokensFrom_moved rules n 0 cs
  rw [Nat.add_zero] at hmoved
  rw [hmoved] at h
  obtain ⟨u, -, rfl⟩ := List.mem_map.1 h
  exact Nat.le_add_right n u.offset

theorem exists_of_width_le {s rest u v : List Char} (h : s ++ rest = u ++ v) (hle : width s ≤ width u) :
    ∃ m, u = s ++ m ∧ rest = m ++ v := by
  rcases List.append_eq_append_iff.1 h with hfits | ⟨m, rfl, rfl⟩
  · exact hfits
  · cases m with
    | nil => exact ⟨[], by simp, rfl⟩
    | cons c m =>
      rw [width_append, width_cons] at hle
      have hsize := c.utf8Size_pos
      omega

/-- Where a token starts, the text behind is read by itself. -/
theorem exists_tokensFrom_append {n : Nat} {u v : List Char}
    (h : ∃ t ∈ tokensFrom rules n (u ++ v), t.offset = n + width u) : ∃ ts,
      tokensFrom rules n (u ++ v) = ts ++ tokensFrom rules (n + width u) v ∧
        ∀ t ∈ ts, t.offset < n + width u := by
  induction hlength : u.length using Nat.strong_induction_on generalizing n u with
  | h length ih =>
    cases u with
    | nil => exact ⟨[], rfl, by simp⟩
    | cons c u =>
      obtain ⟨t, ht, hoffset⟩ := h
      obtain ⟨hne, happend⟩ := takeSegment_append rules c (u ++ v)
      rw [List.cons_append, tokensFrom_cons] at ht
      rw [List.cons_append, tokensFrom_cons]
      generalize (takeSegment rules c (u ++ v)).1 = kind at *
      generalize (takeSegment rules c (u ++ v)).2.1 = s at *
      generalize (takeSegment rules c (u ++ v)).2.2 = rest at *
      have hpos := width_pos hne
      -- the first segment starts in front of the token, so the token is among the others
      have hfirst : ∀ t' ∈ (Segment.token? ⟨kind, s, n⟩).toList, t'.offset = n := by
        intro t' ht'
        cases kind with
        | token => rw [List.mem_singleton.1 ht']
        | blank | comment => exact absurd ht' (by simp [Segment.token?])
      have hwidth := width_pos (List.cons_ne_nil c u)
      have hrest : t ∈ tokensFrom rules (n + width s) rest := by
        refine (List.mem_append.1 ht).resolve_left fun hmem => ?_
        have hstart := hfirst t hmem
        omega
      have hle := le_offset_of_mem_tokensFrom hrest
      obtain ⟨m, hu, rfl⟩ : ∃ m, c :: u = s ++ m ∧ rest = m ++ v :=
        exists_of_width_le (happend.trans (List.cons_append).symm) (by omega)
      have hsplit := congrArg width hu
      have hshort : m.length < length := by
        have hlengths := congrArg List.length hu
        have hs := List.length_pos_iff.2 hne
        rw [List.length_append] at hlengths
        omega
      rw [width_append] at hsplit
      obtain ⟨ts, hts, hbefore⟩ := ih _ hshort ⟨t, hrest, by omega⟩ rfl
      refine ⟨(Segment.token? ⟨kind, s, n⟩).toList ++ ts, ?_, fun t' ht' => ?_⟩
      · rw [hts, hsplit, List.append_assoc, Nat.add_assoc]
      · rcases List.mem_append.1 ht' with ht' | ht'
        · rw [hfirst t' ht']
          omega
        · have hlt := hbefore t' ht'
          omega

end Lexer

/-! ### Atoms in front of a text -/

theorem Atom.Apart.tokensFrom_append {rules : LexicalRules} {as : List Atom} {rest : List Char}
    (h : Apart rules as) (hnext : ∀ a ∈ as.getLast?, ∀ c ∈ rest.head?, a.endsAt c = true) (n : Nat) :
    Lexer.tokensFrom rules n (textOf as ++ rest) =
      place n as ++ Lexer.tokensFrom rules (n + width (textOf as)) rest := by
  induction h generalizing n with
  | nil => rfl
  | @cons a as ha hfollows hapart ih =>
    obtain ⟨c, cs, hcs⟩ := List.exists_cons_of_ne_nil ha.text_ne_nil
    have hends : ∀ d ∈ (textOf as ++ rest).head?, a.endsAt d = true := by
      intro d hd
      cases as with
      | nil => exact hnext a rfl d hd
      | cons b bs =>
        refine hfollows d ?_
        cases hapart with
        | cons hb =>
          obtain ⟨e, es, hes⟩ := List.exists_cons_of_ne_nil hb.text_ne_nil
          rw [textOf_cons, hes] at hd ⊢
          exact hd
    have hrest := ih (fun b hb => hnext b (by rw [List.getLast?_cons, hb]; rfl)) (n + width a.text)
    have hsplit : textOf (a :: as) ++ rest = c :: (cs ++ (textOf as ++ rest)) := by
      rw [textOf_cons, hcs, List.append_assoc, List.cons_append]
    have htext : a.text ++ (textOf as ++ rest) = c :: (cs ++ (textOf as ++ rest)) := by
      rw [hcs, List.cons_append]
    have hsegment := ha.takeSegment htext hends
    rw [hsplit, tokensFrom_cons, hsegment, place]
    dsimp only
    rw [hrest, textOf_cons, width_append, Nat.add_assoc, List.append_assoc]
    congr 1
    cases a <;> rfl

/-! ### Texts in parentheses -/

/-- The parenthesis in front of the text is closed by the one behind it. -/
def Closes (rules : LexicalRules) (text rest : List Char) : Prop :=
  ∃ found ∈ Parser.closing? 0 (tokensFrom rules 0 (text ++ ')' :: rest)), found.1.offset = width text

instance (rules : LexicalRules) (text rest : List Char) : Decidable (Closes rules text rest) :=
  inferInstanceAs (Decidable (∃ found ∈ Parser.closing? _ _, _))

theorem Parser.exists_of_closing? {k : Nat} {ts rest : List Token} {t : Token}
    (h : closing? k ts = some (t, rest)) : ∃ front, ts = front ++ t :: rest ∧
      ∀ n more, closing? k (front.map (Token.moved n) ++ t.moved n :: more) = some (t.moved n, more) := by
  induction ts generalizing k with
  | nil => exact absurd h (by simp [closing?])
  | cons u ts ih =>
    have hmoved : ∀ n c, (u.moved n).isPunct c = u.isPunct c := fun _ _ => rfl
    have hinner : ∀ {k'}, closing? k' ts = some (t, rest) →
        (∀ n more, closing? k (u.moved n :: more) = closing? k' more) → ∃ front,
          u :: ts = front ++ t :: rest ∧ ∀ n more,
            closing? k (front.map (Token.moved n) ++ t.moved n :: more) = some (t.moved n, more) := by
      intro k' hts hstep
      obtain ⟨front, rfl, hfront⟩ := ih hts
      refine ⟨u :: front, rfl, fun n more => ?_⟩
      rw [List.map_cons, List.cons_append, hstep, hfront]
    unfold closing? at h
    split at h
    case isTrue hopen =>
      refine hinner h fun n more => ?_
      rw [closing?.eq_def]
      dsimp only
      rw [hmoved, if_pos hopen]
    case isFalse hopen =>
      split at h
      case isTrue hclose =>
        cases k with
        | zero =>
          obtain ⟨rfl, rfl⟩ := Prod.mk.inj (Option.some.inj h)
          refine ⟨[], rfl, fun n more => ?_⟩
          rw [List.map_nil, List.nil_append, closing?, hmoved, hmoved, if_neg hopen, if_pos hclose]
        | succ k =>
          refine hinner h fun n more => ?_
          rw [closing?, hmoved, hmoved, if_neg hopen, if_pos hclose]
      case isFalse hclose =>
        refine hinner h fun n more => ?_
        rw [closing?.eq_def]
        dsimp only
        rw [hmoved, hmoved, if_neg hopen, if_neg hclose]

theorem tokensFrom_close (rules : LexicalRules) (n : Nat) (rest : List Char) :
    tokensFrom rules n (')' :: rest) = ⟨.punct, [')'], n⟩ :: tokensFrom rules (n + 1) rest := by
  have happart : Apart rules [.punct ')'] := .mark (by decide) .nil
  refine happart.tokensFrom_append (fun a ha c _ => ?_) n
  obtain rfl := Option.some.inj ha
  rfl

/-- Such a text is read up to the parenthesis that closes it, wherever it stands. -/
theorem Closes.exists_tokens {rules : LexicalRules} {text rest : List Char}
    (h : Closes rules text rest) (n : Nat) : ∃ ts,
      tokensFrom rules n (text ++ ')' :: rest) = ts ++ ⟨.punct, [')'], n + width text⟩ ::
        tokensFrom rules (n + width text + 1) rest ∧
      ∀ more, Parser.closing? 0 (ts ++ ⟨.punct, [')'], n + width text⟩ :: more) =
        some (⟨.punct, [')'], n + width text⟩, more) := by
  obtain ⟨⟨t, after⟩, hfound, hoffset⟩ := h
  obtain ⟨front, htokens, hfront⟩ := Parser.exists_of_closing? hfound
  dsimp only at hoffset
  have hstarts : ∃ t ∈ tokensFrom rules 0 (text ++ ')' :: rest), t.offset = 0 + width text :=
    ⟨t, by rw [htokens]; simp, by rw [hoffset, Nat.zero_add]⟩
  obtain ⟨ts, hts, hbefore⟩ := exists_tokensFrom_append hstarts
  rw [Nat.zero_add] at hts hbefore
  -- the first token behind the text is the parenthesis that was found
  have hsame : front = ts ∧ t = ⟨.punct, [')'], width text⟩ := by
    rw [htokens, tokensFrom_close] at hts
    rcases List.append_eq_append_iff.1 hts with ⟨m, hm, htail⟩ | ⟨m, hm, htail⟩
    · cases m with
      | nil => exact ⟨by simpa using hm.symm, (List.cons.inj htail).1⟩
      | cons u m =>
        have hlt := hbefore u (by rw [hm]; simp)
        rw [← (List.cons.inj htail).1, hoffset] at hlt
        omega
    · cases m with
      | nil => exact ⟨by simpa using hm, (List.cons.inj htail).1.symm⟩
      | cons u m =>
        have hmem : t ∈ tokensFrom rules (width text + 1) rest := by
          rw [(List.cons.inj htail).2]
          simp
        have hle := le_offset_of_mem_tokensFrom hmem
        omega
  obtain ⟨rfl, rfl⟩ := hsame
  refine ⟨front.map (Token.moved n), ?_, hfront n⟩
  have hmoved := tokensFrom_moved rules n 0 (text ++ ')' :: rest)
  rw [Nat.add_zero] at hmoved
  rw [hmoved, hts, tokensFrom_close, List.map_append, List.map_cons, ← tokensFrom_moved, ← Nat.add_assoc]
  rfl

/-- Between atoms, a text in parentheses is read up to the one that closes it. -/
theorem Closes.exists_tokens_between {rules : LexicalRules} {as more : List Atom} {p : List Char}
    (h : Closes rules p (textOf more)) (has : Apart rules (as ++ [punct '('])) (hmore : Apart rules more)
    {n k : Nat} (hk : k = n + width (textOf as)) : ∃ ts,
      tokensFrom rules n (textOf as ++ '(' :: (p ++ ')' :: textOf more)) =
        place n as ++ ⟨.punct, ['('], k⟩ ::
          (ts ++ ⟨.punct, [')'], k + 1 + width p⟩ :: place (k + 1 + width p + 1) more) ∧
      ∀ rest, Parser.closing? 0 (ts ++ ⟨.punct, [')'], k + 1 + width p⟩ :: rest) =
        some (⟨.punct, [')'], k + 1 + width p⟩, rest) := by
  have hlast : ∀ a ∈ (as ++ [punct '(']).getLast?, ∀ c ∈ (p ++ ')' :: textOf more).head?,
      a.endsAt c = true := by
    intro a ha c _
    rw [List.getLast?_concat] at ha
    obtain rfl := Option.some.inj ha
    rfl
  have htext : textOf as ++ '(' :: (p ++ ')' :: textOf more) =
      textOf (as ++ [punct '(']) ++ (p ++ ')' :: textOf more) := by
    rw [textOf_append, List.append_assoc]
    rfl
  have hwidth : n + width (textOf (as ++ [punct '('])) = k + 1 := by
    rw [textOf_append, width_append, ← Nat.add_assoc, ← hk]
    rfl
  obtain ⟨ts, htokens, hclosing⟩ := h.exists_tokens (k + 1)
  refine ⟨ts, ?_, hclosing⟩
  rw [htext, has.tokensFrom_append hlast, hwidth, htokens, hmore.tokensFrom, place_append, ← hk,
    List.append_assoc]
  rfl

end DdlBridge
