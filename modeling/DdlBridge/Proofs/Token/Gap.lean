import DdlBridge.Proofs.Statement.Misread

/-!
# Between the tokens

Tokenizing loses nothing (`readTokens_lossless`). What stands between two tokens, in front of the
first and behind the last, is white space and comments that end where the dialect says; and a token
that opens a literal or a quoted name closes it.
-/

namespace DdlBridge.Lexer

open Text Statement

variable {rules : LexicalRules} {cs gap text rest : List Char} {n : Nat} {t : Token} {ts : List Token}

/-! ### Comments -/

/-- A comment in front of `rest`: a mark and what is left of its line, or what stands between `/*` and
the first `*/`. -/
inductive Comment (rules : LexicalRules) : List Char → List Char → Prop where
  | line {mark body rest : List Char}
      (hmark : mark = ['-', '-'] ∨ (rules.hashComments = true ∧ mark = ['#']))
      (hbody : ∀ c ∈ body, c ≠ '\n' ∧ c ≠ '\r')
      (hrest : rest = [] ∨ ['\n'] <+: rest ∨ ['\r', '\n'] <+: rest) :
      Comment rules (mark ++ body) rest
  | block {body rest : List Char} (hbody : ¬ ['*', '/'] <:+: body ++ ['*']) :
      Comment rules ('/' :: '*' :: (body ++ ['*', '/'])) rest

theorem line_of_takeLine? (h : takeLine? cs = some (text, rest)) :
    (∀ c ∈ text, c ≠ '\n' ∧ c ≠ '\r') ∧
      (rest = [] ∨ ['\n'] <+: rest ∨ ['\r', '\n'] <+: rest) := by
  fun_induction takeLine? cs generalizing text with
  | case1 =>
    obtain ⟨rfl, rfl⟩ := Prod.mk.inj (Option.some.inj h)
    exact ⟨by simp, .inl rfl⟩
  | case2 cs =>
    obtain ⟨rfl, rfl⟩ := Prod.mk.inj (Option.some.inj h)
    exact ⟨by simp, .inr (.inl ⟨cs, rfl⟩)⟩
  | case3 cs =>
    obtain ⟨rfl, rfl⟩ := Prod.mk.inj (Option.some.inj h)
    exact ⟨by simp, .inr (.inr ⟨cs, rfl⟩)⟩
  | case4 => exact absurd h (by simp)
  | case5 c cs hline _ hreturn ih =>
    obtain ⟨inner, hinner, rfl⟩ := Taken.behind_eq_some_iff.1 h
    obtain ⟨hbody, hrest⟩ := ih hinner
    refine ⟨?_, hrest⟩
    rw [List.singleton_append, List.forall_mem_cons]
    exact ⟨⟨hline, hreturn⟩, hbody⟩

theorem comment_of_takeComment? (h : takeComment? rules.hashComments cs = some (text, rest)) :
    Comment rules text rest := by
  unfold takeComment? at h
  split at h
  case h_1 =>
    obtain ⟨inner, hinner, rfl⟩ := Taken.behind_eq_some_iff.1 h
    obtain ⟨hbody, hrest⟩ := line_of_takeLine? hinner
    exact .line (.inl rfl) hbody hrest
  case h_2 =>
    obtain ⟨⟨body, after⟩, hbody, hpair⟩ := Option.map_eq_some_iff.1 h
    obtain ⟨rfl, rfl⟩ := Prod.mk.inj hpair
    exact .block (not_infix_of_breakOn (by simp) hbody)
  case h_3 =>
    split at h
    case isTrue hhash =>
      obtain ⟨inner, hinner, rfl⟩ := Taken.behind_eq_some_iff.1 h
      obtain ⟨hbody, hrest⟩ := line_of_takeLine? hinner
      exact .line (.inr ⟨hhash, rfl⟩) hbody hrest
    case isFalse => exact absurd h (by simp)
  case h_4 => exact absurd h (by simp)

/-! ### Gaps -/

/-- White space and comments, in any order, in front of `rest`. -/
inductive Gap (rules : LexicalRules) (rest : List Char) : List Char → Prop where
  | nil : Gap rules rest []
  | blank {c : Char} {gap : List Char} (hc : isBlank c = true) (h : Gap rules rest gap) :
      Gap rules rest (c :: gap)
  | comment {comment gap : List Char} (hcomment : Comment rules comment (gap ++ rest))
      (h : Gap rules rest gap) : Gap rules rest (comment ++ gap)

theorem Gap.blanks {blanks : List Char} (hblanks : ∀ c ∈ blanks, isBlank c = true)
    (h : Gap rules rest gap) : Gap rules rest (blanks ++ gap) := by
  induction blanks with
  | nil => exact h
  | cons c blanks ih =>
    obtain ⟨hc, hblanks⟩ := List.forall_mem_cons.1 hblanks
    exact .blank hc (ih hblanks)

theorem gap_takeTrivia (rules : LexicalRules) (cs : List Char) :
    Gap rules (takeTrivia rules.hashComments cs).2 (takeTrivia rules.hashComments cs).1 := by
  generalize hhash : rules.hashComments = hash
  have hblanks : ∀ cs : List Char, ∀ c ∈ cs.takeWhile isBlank, isBlank c = true :=
    fun cs c hc => List.mem_takeWhile_imp hc
  fun_induction takeTrivia hash cs with
  | case1 cs comment after h _ more ih =>
    rw [List.append_assoc]
    refine .blanks (hblanks cs) (.comment ?_ ih)
    rw [takeTrivia_append]
    exact comment_of_takeComment? (hhash ▸ h)
  | case2 cs h => simpa using Gap.nil.blanks (hblanks cs)

/-- What is left behind white space and comments starts with neither. -/
theorem not_blank_of_takeTrivia {hash : Bool} {c : Char}
    (h : (takeTrivia hash cs).2 = c :: rest) : isBlank c = false := by
  fun_induction takeTrivia hash cs with
  | case1 cs comment after _ _ more ih => exact ih h
  | case2 cs =>
    have hleft : cs.dropWhile isBlank = c :: rest := h
    have hhead := List.head?_dropWhile_not isBlank cs
    rw [hleft] at hhead
    exact hhead

/-! ### What closes a token -/

/-- The rules under which the lexer reads behind a quote: a backslash escapes nothing in quotes that
name something. -/
def behindQuote (rules : LexicalRules) (opening : Char) : LexicalRules :=
  { rules with backslashEscapes := lexerEscapes rules opening }

/-- A literal and a quoted name end with what closes them, and so they do not end before. -/
def Closed (rules : LexicalRules) (t : Token) (rest : List Char) : Prop :=
  match t.kind with
  | .string | .quotedIdent => ∃ opening body, opensQuote rules opening = true ∧
      t.text = opening :: (body ++ [closing opening]) ∧
      Enclosed (behindQuote rules opening) (closing opening) body ∧
      rest.head? ≠ some (closing opening)
  | .dollarString => ∃ tag body, rules.dollarQuotes = true ∧ '$' ∉ tag ∧
      t.text = '$' :: (tag ++ ['$']) ++ body ++ '$' :: (tag ++ ['$']) ∧
      ¬ '$' :: (tag ++ ['$']) <:+: body ++ '$' :: tag
  | .word | .number | .punct => True

theorem escapesIn_behindQuote {opening : Char} (h : opensQuote rules opening = true) :
    escapesIn (behindQuote rules opening) (closing opening) = lexerEscapes rules opening := by
  simp only [opensQuote, Bool.or_eq_true, Bool.and_eq_true, beq_iff_eq] at h
  obtain ((rfl | rfl) | ⟨-, rfl⟩) | ⟨-, rfl⟩ := h <;>
    simp [escapesIn, behindQuote, closing, lexerEscapes]

theorem closed_takeToken (rules : LexicalRules) (c : Char) (cs : List Char) (n : Nat) :
    Closed rules ⟨(takeToken rules c cs).1, (takeToken rules c cs).2.1, n⟩
      (takeToken rules c cs).2.2 := by
  have hread := read rules c cs
  generalize takeToken rules c cs = taken at hread ⊢
  cases hread with
  | @dollar tag inner rest hrules _ htag hinner =>
    refine ⟨tag, inner, hrules, htag, by simp [Lexeme.text], ?_⟩
    have hfirst := not_infix_of_breakOn (by simp) hinner
    rwa [← List.cons_append, List.dropLast_concat] at hfirst
  | @quoted kind text rest hopen hkind htake =>
    have hreads := readsUpTo_takeQuoted (behindQuote rules c) (closing_ne_backslash hopen) cs
    rw [escapesIn_behindQuote hopen, htake] at hreads
    obtain ⟨body, rfl, hbody, hrest⟩ := hreads
    rcases hkind with rfl | rfl
    · exact ⟨c, body, hopen, rfl, hbody, hrest⟩
    · exact ⟨c, body, hopen, rfl, hbody, hrest⟩
  | number => trivial
  | word => trivial
  | punct => trivial

/-! ### Tokens and what is between them -/

/-- A text that starts at byte `n` is its tokens with a gap in front of each and one behind the
last. -/
inductive Woven (rules : LexicalRules) : Nat → List Char → List Token → Prop where
  | gap {n : Nat} {gap : List Char} (hgap : Gap rules [] gap) : Woven rules n gap []
  | token {n : Nat} {gap rest : List Char} {t : Token} {ts : List Token}
      (hgap : Gap rules (t.text ++ rest) gap) (hoffset : t.offset = n + width gap)
      (hstart : t.text.head?.any isBlank = false) (hne : t.text ≠ [])
      (hclosed : Closed rules t rest) (hrest : Woven rules t.stop rest ts) :
      Woven rules n (gap ++ t.text ++ rest) (t :: ts)

theorem woven_tokensFrom (rules : LexicalRules) (n : Nat) (cs : List Char) :
    Woven rules n cs (tokensFrom rules n cs) := by
  fun_induction tokensFrom rules n cs with
  | case1 n cs h =>
    have hgap := gap_takeTrivia rules cs
    have hcs := takeTrivia_append rules.hashComments cs
    rw [h, List.append_nil] at hcs
    rw [h, hcs] at hgap
    exact .gap hgap
  | case2 n cs c rest h _ start taken ih =>
    obtain ⟨hne, htoken⟩ := takeToken_append rules c rest
    have hgap := gap_takeTrivia rules cs
    have hcs := takeTrivia_append rules.hashComments cs
    have hstart : (takeToken rules c rest).2.1.head?.any isBlank = false := by
      obtain ⟨d, ds, hds⟩ := List.exists_cons_of_ne_nil hne
      rw [hds, List.cons_append] at htoken
      rw [hds, (List.cons.inj htoken).1]
      exact not_blank_of_takeTrivia h
    rw [h, ← htoken] at hgap hcs
    have hwoven : Woven rules n ((takeTrivia rules.hashComments cs).1 ++ taken.2.1 ++ taken.2.2)
        (⟨taken.1, taken.2.1, start⟩ :: tokensFrom rules (start + width taken.2.1) taken.2.2) :=
      .token hgap rfl hstart hne (closed_takeToken rules c rest start) ih
    rwa [List.append_assoc, hcs] at hwoven

theorem Woven.le_offset (h : Woven rules n cs ts) : ∀ t ∈ ts, n ≤ t.offset := by
  induction h with
  | gap => simp
  | @token n gap rest t ts _ hoffset _ _ _ _ ih =>
    rw [List.forall_mem_cons]
    refine ⟨by omega, fun u hu => ?_⟩
    have hle := ih u hu
    rw [Token.stop] at hle
    omega

theorem Woven.pairwise (h : Woven rules n cs ts) :
    ts.Pairwise fun a b => a.offset < b.offset ∧ a.stop ≤ b.offset := by
  induction h with
  | gap => exact .nil
  | @token n gap rest t ts _ _ _ hne _ hrest ih =>
    refine .cons (fun u hu => ?_) ih
    have hle := hrest.le_offset u hu
    have hpos := width_pos hne
    refine ⟨?_, hle⟩
    rw [Token.stop] at hle
    omega

/-- Each token is what a text has at its place. -/
theorem Woven.slice (h : Woven rules n cs ts) (front : List Char) (hfront : width front = n) :
    ∀ t ∈ ts, t.text ≠ [] ∧ slice t.offset t.stop (front ++ cs) = t.text := by
  induction h generalizing front with
  | gap => simp
  | @token n gap rest t ts _ hoffset _ hne _ _ ih =>
    -- Offsets count from the start of the whole text, so what was read goes along in front.
    have hstart : width (front ++ gap) = t.offset := by rw [width_append, hfront, hoffset]
    rw [List.forall_mem_cons]
    constructor
    · refine ⟨hne, ?_⟩
      rw [Token.stop, ← hstart]
      simpa using slice_width_append (front ++ gap) t.text rest
    · have hrest := ih (front ++ gap ++ t.text) (by rw [width_append, hstart, Token.stop])
      simpa using hrest

end Lexer

open Lexer Text

/-- **Tokenizing is lossless.** Every text has tokens, and between them, in front of the first and
behind the last are white space and whole comments of the dialect only. The tokens stand in their
order, none reaches into the next, and each is what the text has at its place. None is empty or starts
with white space, and none that opens a literal or a quoted name leaves it open (`Woven`). -/
theorem readTokens_lossless (d : Dialect) (text : List Char) : ∃ ts, readTokens d text = .ok ts ∧
    Woven d.rules 0 text ts ∧
    ts.Pairwise (fun a b => a.offset < b.offset ∧ a.stop ≤ b.offset) ∧
    ∀ t ∈ ts, t.text ≠ [] ∧ slice t.offset t.stop text = t.text := by
  have hwoven := woven_tokensFrom d.rules 0 text
  exact ⟨tokenize d text, readTokens_eq d text, hwoven, hwoven.pairwise, hwoven.slice [] rfl⟩

end DdlBridge
