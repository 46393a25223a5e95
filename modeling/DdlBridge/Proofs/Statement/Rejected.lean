import DdlBridge.Proofs.Grammar.Script
import DdlBridge.Proofs.Statement.TerminatorLine
import Mathlib.Data.List.DropRight

/-!
# A terminator line that did not end its statement

A `;` in front of a terminator line makes the line the beginning of the next statement. The grammar
rejects that statement, whatever stands behind the line (`ofStatement_of_opens`).
-/

namespace DdlBridge.Statement

open Scanner Text Lexer

/-! ### The first token -/

theorem snd_takeTrivia (hash : Bool) (cs : List Char) : (takeTrivia hash cs).2 =
    match takeComment? hash (cs.dropWhile isBlank) with
    | some (_, behind) => (takeTrivia hash behind).2
    | none => cs.dropWhile isBlank := by
  rw [takeTrivia]
  split <;> simp_all

theorem snd_takeTrivia_dropWhile (hash : Bool) (cs : List Char) :
    (takeTrivia hash (cs.dropWhile isBlank)).2 = (takeTrivia hash cs).2 := by
  rw [snd_takeTrivia, snd_takeTrivia hash cs, List.dropWhile_idempotent]

theorem snd_takeTrivia_append (hash : Bool) {a : List Char} (ha : Trivia a) (rest : List Char) :
    (takeTrivia hash (a ++ rest)).2 = (takeTrivia hash rest).2 := by
  induction ha with
  | nil => rfl
  | @blank c cs hc hcs ih =>
    rw [List.cons_append, ← snd_takeTrivia_dropWhile, List.dropWhile_cons_of_pos hc,
      snd_takeTrivia_dropWhile, ih]
  | @comment body cs hbody hcs ih =>
    have hbreak : breakOn ['*', '/'] (body ++ ['*', '/'] ++ (cs ++ rest)) = some (body, cs ++ rest) :=
      breakOn_append hbody _
    rw [snd_takeTrivia]
    simp only [List.cons_append, List.append_assoc] at hbreak ⊢
    rw [List.dropWhile_cons_of_neg (by decide)]
    simp only [takeComment?, List.nil_append] at hbreak ⊢
    rw [hbreak]
    exact ih

/-- No reader takes a slash. -/
theorem takeToken_slash (rules : LexicalRules) (cs : List Char) :
    takeToken rules '/' cs = (.punct, ['/'], cs) := by
  have hnone : ∀ rs : List (TokenKind × (List Char → Taken)),
      (∀ r ∈ rs, r.2 ('/' :: cs) = none) → firstOf ('/' :: cs) rs = none := by
    intro rs hrs
    induction rs with
    | nil => rfl
    | cons r rs ih =>
      rw [firstOf, hrs r List.mem_cons_self]
      exact ih fun r' hmem => hrs r' (List.mem_cons_of_mem _ hmem)
  rw [takeToken, hnone]
  · rfl
  · intro r hr
    simp only [readers, List.mem_append, List.mem_cons, List.not_mem_nil, or_false] at hr
    rcases hr with ((hr | hr) | hr) | rfl | rfl | rfl | rfl
    · split at hr
      · obtain rfl := List.mem_singleton.1 hr
        rfl
      · exact absurd hr List.not_mem_nil
    · split at hr
      · obtain rfl := List.mem_singleton.1 hr
        rfl
      · exact absurd hr List.not_mem_nil
    · split at hr
      · obtain rfl := List.mem_singleton.1 hr
        rfl
      · exact absurd hr List.not_mem_nil
    all_goals rfl

/-- Only the reader of words takes the letter `G`. -/
theorem takeToken_g (rules : LexicalRules) {g : Char} (hg : g = 'g' ∨ g = 'G') (cs : List Char) :
    takeToken rules g cs = (.word, g :: cs.takeWhile continuesWord, cs.dropWhile continuesWord) := by
  unfold takeToken readers
  rcases hg with rfl | rfl
  all_goals
    cases rules.dollarQuotes <;> cases rules.backtickQuotes <;> cases rules.bracketQuotes <;> rfl

theorem tokensFrom_of_trivia (rules : LexicalRules) (offset : Nat) {cs rest : List Char} {c : Char}
    (h : (takeTrivia rules.hashComments cs).2 = c :: rest) : ∃ start ts,
      tokensFrom rules offset cs =
        ⟨(takeToken rules c rest).1, (takeToken rules c rest).2.1, start⟩ :: ts := by
  rw [tokensFrom]
  split
  case h_1 heq => rw [h] at heq; exact absurd heq (by simp)
  case h_2 c' rest' heq =>
    rw [h] at heq
    obtain ⟨rfl, rfl⟩ := List.cons.inj heq
    exact ⟨_, _, rfl⟩

/-- A first token that is no known verb is rejected. -/
theorem ofStatement_of_keyword {d : Dialect} {s : Statement} {t : Token} {ts : List Token}
    (htokens : tokenize d s.text = t :: ts) (hcreate : t.keyword ≠ "CREATE")
    (hskip : t.keyword ∉ Grammar.skippedVerbs) : ∃ e, Grammar.ofStatement d s = .error e := by
  have hstatement : Grammar.statement ⟨s.text, d⟩ (t :: ts) =
      Parser.fail (.unexpectedStatement (String.ofList t.text)) ⟨s.text, d⟩ (t :: ts) := by
    have hif : (if t.keyword = "CREATE" then Grammar.createStatement
        else if t.keyword ∈ Grammar.skippedVerbs then pure {}
        else Parser.fail (.unexpectedStatement (String.ofList t.text)) : Parser Schema) =
        Parser.fail (.unexpectedStatement (String.ofList t.text)) := by
      rw [if_neg hcreate, if_neg hskip]
    rw [← hif]
    rfl
  rw [Grammar.ofStatement_eq, htokens, hstatement]
  exact ⟨_, rfl⟩

theorem takeWhile_newline (rest more : List Char) :
    (rest ++ '\n' :: more).takeWhile continuesWord = rest.takeWhile continuesWord := by
  have hnewline : ('\n' :: more).takeWhile continuesWord = [] :=
    List.takeWhile_cons_of_neg (by decide)
  rw [List.takeWhile_append, hnewline, List.append_nil]
  split
  case isTrue h => exact ((List.takeWhile_prefix _).eq_of_length h).symm
  case isFalse => rfl

theorem Opens.not_blank {c : Char} {rest : List Char} (h : Opens c rest) :
    isBlank c = false ∧ c ≠ ';' := by
  cases h with
  | slash hc =>
    subst hc
    decide
  | go hc => rcases hc with rfl | rfl <;> decide

/-- Cut off anywhere behind it, a beginning stays what it is. -/
theorem Opens.of_prefix {c : Char} {rest y more : List Char} (h : Opens c rest)
    (hy : y <+: rest ++ '\n' :: more) : Opens c y := by
  obtain ⟨z, hz⟩ := hy
  cases h with
  | slash hc hrest =>
    refine .slash hc fun w heq => ?_
    subst heq
    cases rest with
    | nil => exact absurd (List.cons.inj hz).1 (by decide)
    | cons d rest => exact hrest rest (by rw [(List.cons.inj hz).1])
  | go hc hrest =>
    refine .go hc ?_
    have hprefix : y.takeWhile continuesWord <+: rest.takeWhile continuesWord := by
      rw [← takeWhile_newline rest more, ← hz, List.takeWhile_append]
      split
      case isTrue h =>
        rw [(List.takeWhile_prefix _).eq_of_length h]
        exact List.prefix_append _ _
      case isFalse => exact List.prefix_rfl
    simp only [List.mem_cons, List.not_mem_nil, or_false] at hrest ⊢
    rcases hrest with h | h | h <;> rw [h] at hprefix
    · exact .inl (List.prefix_nil.1 hprefix)
    · rcases List.prefix_cons_iff.1 hprefix with h | ⟨t, h, ht⟩
      · exact .inl h
      · exact .inr (.inl (by rw [h, List.prefix_nil.1 ht]))
    · rcases List.prefix_cons_iff.1 hprefix with h | ⟨t, h, ht⟩
      · exact .inl h
      · exact .inr (.inr (by rw [h, List.prefix_nil.1 ht]))

theorem takeTrivia_of_opens {hash : Bool} {c : Char} {y : List Char} (h : Opens c y) :
    (takeTrivia hash (c :: y)).2 = c :: y := by
  have hcomment : isBlank c = false ∧ takeComment? hash (c :: y) = none := by
    cases h with
    | slash hc hrest =>
      subst hc
      refine ⟨by decide, ?_⟩
      unfold takeComment?
      split
      case h_1 heq => exact absurd (List.cons.inj heq).1 (by decide)
      case h_2 heq => exact absurd (List.cons.inj heq).2 (hrest _)
      case h_3 heq => exact absurd (List.cons.inj heq).1 (by decide)
      case h_4 => rfl
    | go hc => rcases hc with rfl | rfl <;> exact ⟨by decide, rfl⟩
  have hdrop : (c :: y).dropWhile isBlank = c :: y :=
    List.dropWhile_cons_of_neg (by rw [hcomment.1]; simp)
  rw [snd_takeTrivia, hdrop, hcomment.2]

/-- The grammar rejects a statement that starts with what a terminator line holds. -/
theorem ofStatement_of_opens {d : Dialect} {s : Statement} {a y : List Char} {c : Char}
    (ha : Trivia a) (hopens : Opens c y) (htext : s.text = trimStart (a ++ c :: y)) :
    ∃ e, Grammar.ofStatement d s = .error e := by
  have htrivia : (takeTrivia d.rules.hashComments s.text).2 = c :: y := by
    rw [htext, trimStart, snd_takeTrivia_dropWhile, snd_takeTrivia_append _ ha,
      takeTrivia_of_opens hopens]
  obtain ⟨start, ts, htokens⟩ := tokensFrom_of_trivia d.rules 0 htrivia
  have hkeyword : ∀ t : Token, t.kind = (takeToken d.rules c y).1 →
      t.text = (takeToken d.rules c y).2.1 → t.keyword ∈ ["", "G", "GO"] := by
    intro t hkind htext
    cases hopens with
    | slash hc hrest =>
      subst hc
      rw [takeToken_slash] at hkind
      rw [Token.keyword, hkind]
      simp
    | go hc hrest =>
      rw [takeToken_g d.rules hc] at hkind htext
      rw [Token.keyword, hkind, htext, if_pos rfl]
      simp only [List.mem_cons, List.not_mem_nil, or_false] at hrest
      rcases hc with rfl | rfl <;> rcases hrest with h | h | h <;> rw [h] <;> dsimp only <;> decide
  have hknown := hkeyword ⟨(takeToken d.rules c y).1, (takeToken d.rules c y).2.1, start⟩ rfl rfl
  refine ofStatement_of_keyword htokens ?_ ?_ <;>
    · simp only [List.mem_cons, List.not_mem_nil, or_false] at hknown
      rcases hknown with h | h | h <;> rw [h] <;> decide

/-! ### The statement that starts with the line -/

theorem trimEnd_isPrefix (cs : List Char) : trimEnd cs <+: cs := by
  have hsuffix : cs.reverse.dropWhile isBlank <:+ cs.reverse := List.dropWhile_suffix isBlank
  have hprefix := List.reverse_prefix.2 hsuffix
  rwa [List.reverse_reverse] at hprefix

/-- Trimming leaves what ends with a character that is no white space. -/
theorem isPrefix_trimEnd {front cs : List Char} {c : Char} (hc : isBlank c = false)
    (h : front ++ [c] <+: cs) : front ++ [c] <+: trimEnd cs := by
  obtain ⟨rest, rfl⟩ := h
  induction rest using List.reverseRecOn with
  | nil =>
    have htrim : trimEnd (front ++ [c]) = front ++ [c] := by
      rw [trimEnd, List.reverse_append, List.reverse_singleton, List.singleton_append,
        List.dropWhile_cons_of_neg (by rw [hc]; simp), List.reverse_cons, List.reverse_reverse]
    exact ⟨[], by rw [List.append_nil, htrim]⟩
  | append_singleton rest d ih =>
    cases hd : isBlank d with
    | true =>
      rw [← List.append_assoc, trimEnd_append_blanks _ (by simpa using hd)]
      exact ih
    | false =>
      rw [← List.append_assoc, trimEnd, List.reverse_append, List.reverse_singleton,
        List.singleton_append, List.dropWhile_cons_of_neg (by rw [hd]; simp), List.reverse_cons,
        List.reverse_reverse, List.append_assoc]
      exact List.prefix_append _ _

theorem lastLine_isPrefix (cs : List Char) : (lastLine cs).1 <+: cs := by
  have hsuffix : (cs.reverse.dropWhile (· != '\n')).tail <:+ cs.reverse :=
    (List.tail_suffix _).trans (List.dropWhile_suffix _)
  have hprefix := List.reverse_prefix.2 hsuffix
  rwa [List.reverse_reverse] at hprefix

/-- The last line is behind every line end. -/
theorem isPrefix_lastLine (v w : List Char) : v <+: (lastLine (v ++ '\n' :: w)).1 := by
  have hdrop : ∃ z, (v ++ '\n' :: w).reverse.dropWhile (· != '\n') = z ++ '\n' :: v.reverse := by
    rw [List.reverse_append, List.reverse_cons, List.append_assoc, List.singleton_append,
      List.dropWhile_append]
    split
    · exact ⟨[], List.dropWhile_cons_of_neg (by simp)⟩
    · exact ⟨_, rfl⟩
  obtain ⟨z, hz⟩ := hdrop
  rw [lastLine]
  dsimp only
  rw [hz]
  cases z with
  | nil => simp
  | cons c z => simp [List.append_assoc]

theorem stripTerminator_isPrefix (rules : LexicalRules) (raw : List Char) :
    stripTerminator rules raw <+: raw := by
  have hbody : ∀ body : List Char, body <+: raw →
      (if body.getLast? = some ';' then trimEnd body.dropLast else body) <+: raw := by
    intro body hprefix
    split
    · exact ((trimEnd_isPrefix _).trans (List.dropLast_prefix _)).trans hprefix
    · exact hprefix
  refine hbody _ ?_
  split
  · exact ((trimEnd_isPrefix _).trans (lastLine_isPrefix _)).trans (trimEnd_isPrefix _)
  · exact trimEnd_isPrefix _

/-- No terminator is taken off the lines before the last one, but for a `;` at their end. -/
theorem isPrefix_stripTerminator (rules : LexicalRules) (front rest : List Char) {w : List Char}
    {c : Char} (hc : isBlank c = false) (hsemicolon : c ≠ ';') (hw : ∃ d ∈ w, isBlank d = false) :
    front ++ [c] <+: stripTerminator rules (front ++ [c] ++ rest ++ '\n' :: w) := by
  -- the body keeps the line end behind `rest`
  have hlines : ∃ x, trimEnd (front ++ [c] ++ rest ++ '\n' :: w) =
      front ++ [c] ++ rest ++ '\n' :: x := by
    obtain ⟨d, hd, hblank⟩ := hw
    obtain ⟨w₁, w₂, rfl⟩ := List.append_of_mem hd
    have hprefix : front ++ [c] ++ rest ++ '\n' :: w₁ ++ [d] <+:
        front ++ [c] ++ rest ++ '\n' :: (w₁ ++ d :: w₂) := ⟨w₂, by simp⟩
    obtain ⟨z, hz⟩ := isPrefix_trimEnd hblank hprefix
    exact ⟨w₁ ++ [d] ++ z, by rw [← hz]; simp⟩
  obtain ⟨x, hx⟩ := hlines
  have hbody : ∀ body : List Char, front ++ [c] <+: body →
      front ++ [c] <+: if body.getLast? = some ';' then trimEnd body.dropLast else body := by
    rintro body ⟨z, rfl⟩
    split
    case isFalse => exact List.prefix_append _ _
    case isTrue h =>
      refine isPrefix_trimEnd hc ?_
      rcases List.eq_nil_or_concat z with rfl | ⟨z, e, rfl⟩
      · rw [List.append_nil, List.getLast?_concat] at h
        exact absurd (Option.some.inj h) hsemicolon
      · rw [List.concat_eq_append, ← List.append_assoc, List.dropLast_concat]
        exact List.prefix_append _ _
  unfold stripTerminator
  dsimp only
  rw [hx]
  refine hbody _ ?_
  split
  · exact isPrefix_trimEnd hc ((List.prefix_append _ rest).trans (isPrefix_lastLine _ x))
  · rw [List.append_assoc]
    exact List.prefix_append _ _

/-- The statement in a piece that starts with what a terminator line holds starts with it as well. -/
theorem exists_ofPiece? (rules : LexicalRules) (start : Nat) (a rest : List Char) {w : List Char}
    {c : Char} (hc : isBlank c = false) (hsemicolon : c ≠ ';') (hw : ∃ d ∈ w, isBlank d = false) :
    ∃ s y, ofPiece? rules start (a ++ c :: rest ++ '\n' :: w) = some s ∧
      s.text = trimStart (a ++ c :: y) ∧ y <+: rest ++ '\n' :: w := by
  have hraw : a ++ c :: rest ++ '\n' :: w = a ++ [c] ++ rest ++ '\n' :: w := by simp
  rw [hraw]
  obtain ⟨y, hy⟩ := isPrefix_stripTerminator rules a rest hc hsemicolon hw
  have hprefix := stripTerminator_isPrefix rules (a ++ [c] ++ rest ++ '\n' :: w)
  rw [← hy] at hprefix
  have htext : a ++ [c] ++ y = a ++ c :: y := by simp
  have hne : (trimStart (a ++ c :: y)).isEmpty = false := by
    rw [← Bool.not_eq_true, List.isEmpty_iff, trimStart, List.dropWhile_eq_nil_iff]
    intro hall
    have := hall c (by simp)
    rw [hc] at this
    exact absurd this (by simp)
  refine ⟨⟨start + (width (a ++ c :: y) - width (trimStart (a ++ c :: y))),
    trimStart (a ++ c :: y)⟩, y, ?_, rfl, ?_⟩
  · unfold ofPiece?
    dsimp only
    rw [← hy, htext, hne]
    rfl
  · rw [List.append_assoc, List.append_assoc, List.append_assoc,
      List.prefix_append_right_inj] at hprefix
    exact (List.cons_prefix_cons.1 hprefix).2

/-! ### Severed scripts are rejected -/

theorem not_cutsAt_of_terminatorLine {rules : LexicalRules} {v front rest : List Char} {c : Char}
    (hv : '\n' ∉ v) (hcut : cutsAt rules v '\n' = true) (hparts : v = front ++ c :: rest) :
    cutsAt rules front c = false := by
  rw [Bool.eq_false_iff]
  intro hbefore
  subst hparts
  have hc : c ≠ '\n' := fun heq => hv (by rw [heq]; simp)
  have hrest : '\n' ∉ rest := fun hmem => hv (by simp [hmem])
  have hnot := not_cut_behind_semicolon (sound_fresh rules) hbefore hc hrest
  rw [cutsAt] at hcut
  exact absurd (hcut.symm.trans hnot) (by simp)

/-- A piece that nothing has cut. -/
theorem splitter_uncut (rules : LexicalRules) (v : List Char)
    (huncut : ∀ front c rest, v = front ++ c :: rest → cutsAt rules front c = false) :
    (splitter rules v).piece = v.reverse ∧ (splitter rules v).start = 0 ∧
      (splitter rules v).found = [] := by
  induction v using List.reverseRecOn with
  | nil => exact ⟨rfl, rfl, rfl⟩
  | append_singleton v c ih =>
    obtain ⟨hpiece, hstart, hfound⟩ := ih fun front d rest hparts =>
      huncut front d (rest ++ [c]) (by rw [hparts]; simp)
    rw [splitter_of_not_cut (huncut v c [] rfl)]
    refine ⟨?_, hstart, hfound⟩
    simp [hpiece]

/-- Behind a hidden line end the script is still in the statement that starts with the line, or that
statement has been found. -/
def Holding (rules : LexicalRules) (done v w : List Char) : Prop :=
  ((splitter rules (done ++ (v ++ '\n' :: w))).piece = (v ++ '\n' :: w).reverse ∧
    (splitter rules (done ++ (v ++ '\n' :: w))).start = width done ∧
    (after rules (done ++ (v ++ '\n' :: w))).content = true) ∨
  ∃ w' s, (∃ d ∈ w', isBlank d = false) ∧ s ∈ (splitter rules (done ++ (v ++ '\n' :: w))).found ∧
    ofPiece? rules (width done) (v ++ '\n' :: w') = some s

section

variable {rules : LexicalRules} {u v : List Char}

theorem mem_found_concat {cs : List Char} {s : Statement} (hs : s ∈ (splitter rules cs).found)
    (c : Char) : s ∈ (splitter rules (cs ++ [c])).found := by
  cases hcut : cutsAt rules cs c with
  | true =>
    rw [splitter_of_cut hcut]
    exact List.mem_append_right _ hs
  | false =>
    rw [splitter_of_not_cut hcut]
    exact hs

/-- Behind the hidden line end the line is still in the piece, and the statement has content. -/
theorem Holding.init (hrules : LineFree rules ∨ rules.backslashEscapes = false)
    (hbegin : Begins rules (u ++ [';'])) (hv : '\n' ∉ v) (hcut : cutsAt rules v '\n' = true)
    (hcontent : (feedChar (after rules v) '\n').1.lastContent = true) :
    Holding rules (u ++ [';']) v [] ∧ Quiet (after rules (u ++ [';'] ++ (v ++ ['\n']))) := by
  have hfollows := Follows.of_joined hrules hbegin (joined_of_not_mem hv)
  obtain ⟨hpiece, hstart, -⟩ := splitter_uncut rules v fun front c rest =>
    not_cutsAt_of_terminatorLine hv hcut
  obtain ⟨s, hfeed, hquiet, hkept⟩ := feedChar_hidden hrules hbegin hv hcut
  have hnot : cutsAt rules (u ++ [';'] ++ v) '\n' = false := by rw [cutsAt, hfeed]
  have hafter : after rules (u ++ [';'] ++ v ++ ['\n']) = s := by rw [after_concat, hfeed]
  rw [← List.append_assoc (u ++ [';'])]
  refine ⟨.inl ?_, hafter.symm ▸ hquiet⟩
  rw [← List.append_assoc (u ++ [';']), splitter_of_not_cut hnot, hafter, hkept, hcontent]
  refine ⟨?_, ?_, rfl⟩
  · simp only [hfollows.piece, hpiece, List.reverse_append, List.reverse_cons, List.reverse_nil,
      List.nil_append, List.singleton_append]
  · simp only [hfollows.start, hstart, Nat.add_zero]

theorem Holding.concat {done w : List Char} {c : Char}
    (hline : ∃ a core rest, v = a ++ core :: rest ∧ Opens core rest)
    (hquiet : Quiet (after rules (done ++ (v ++ ['\n']))))
    (hblank : ∀ d ∈ w ++ [c], isBlank d = true → d ∈ plainBlanks) (h : Holding rules done v w) :
    Holding rules done v (w ++ [c]) := by
  have htext : done ++ (v ++ '\n' :: (w ++ [c])) = done ++ (v ++ '\n' :: w) ++ [c] := by simp
  rw [Holding, htext]
  rcases h with ⟨hpiece, hstart, hcontent⟩ | ⟨w', s, hw', hs, hofPiece⟩
  case inr => exact .inr ⟨w', s, hw', mem_found_concat hs c, hofPiece⟩
  have hkept := kept_feedChar (sound_after rules (done ++ (v ++ '\n' :: w))) hcontent c
  cases hcut : cutsAt rules (done ++ (v ++ '\n' :: w)) c with
  | false =>
    rw [cutsAt] at hcut
    rw [kept, if_neg (by rw [hcut]; simp), ← after_concat] at hkept
    rw [splitter_of_not_cut hcut]
    refine .inl ⟨?_, hstart, hkept⟩
    simp [hpiece]
  | true =>
    have hcut' := hcut
    rw [cutsAt] at hcut'
    rw [kept, if_pos hcut', ← after_concat] at hkept
    have hw : ∃ d ∈ w ++ [c], isBlank d = false := by
      refine Decidable.byContradiction fun hnone => ?_
      have hall : ∀ d ∈ w ++ [c], d ∈ plainBlanks := by
        intro d hd
        refine hblank d hd ?_
        rw [← Bool.not_eq_false]
        exact fun hnot => hnone ⟨d, hd, hnot⟩
      have hstay : after rules (done ++ (v ++ '\n' :: w)) = after rules (done ++ (v ++ ['\n'])) := by
        rw [← hquiet.after_append fun d hd => hall d (List.mem_append_left _ hd)]
        simp
      rw [hstay, hquiet.feedChar (hall c (by simp))] at hcut'
      exact absurd hcut' (by simp)
    obtain ⟨a, core, rest, rfl, hopens⟩ := hline
    have hcore := hopens.not_blank
    obtain ⟨s, y, hofPiece, -, -⟩ :=
      exists_ofPiece? rules (width done) a rest hcore.1 hcore.2 hw
    refine .inr ⟨w ++ [c], s, hw, ?_, hofPiece⟩
    rw [splitter_of_cut hcut]
    have hraw : (c :: (splitter rules (done ++ (a ++ core :: rest ++ '\n' :: w))).piece).reverse =
        a ++ core :: rest ++ '\n' :: (w ++ [c]) := by
      rw [hpiece]
      simp
    simp only [hkept, statement?_splitter, if_true, hstart, hraw, hofPiece, Option.toList_some,
      List.singleton_append, List.mem_cons, true_or]

/-- So it stays to the end of the script. -/
theorem Holding.append {done w : List Char}
    (hline : ∃ a core rest, v = a ++ core :: rest ∧ Opens core rest)
    (hquiet : Quiet (after rules (done ++ (v ++ ['\n']))))
    (hblank : ∀ d ∈ w, isBlank d = true → d ∈ plainBlanks) (h : Holding rules done v []) :
    Holding rules done v w := by
  induction w using List.reverseRecOn with
  | nil => exact h
  | append_singleton w c ih =>
    exact .concat hline hquiet hblank (ih fun d hd => hblank d (List.mem_append_left _ hd))

end

theorem exists_rejected_piece {d : Dialect} {v a rest w : List Char} {core : Char}
    (hparts : v = a ++ core :: rest) (ha : Trivia a) (hopens : Opens core rest)
    (hw : ∃ e ∈ w, isBlank e = false) (start : Nat) :
    ∃ s, ofPiece? d.rules start (v ++ '\n' :: w) = some s ∧
      ∃ e, Grammar.ofStatement d s = .error e := by
  have hcore := hopens.not_blank
  obtain ⟨s, y, hofPiece, htext, hy⟩ := exists_ofPiece? d.rules start a rest hcore.1 hcore.2 hw
  rw [← hparts] at hofPiece
  exact ⟨s, hofPiece, ofStatement_of_opens ha (hopens.of_prefix hy) htext⟩

/-- A script in which a `;` hides a terminator line has a statement that the grammar rejects. -/
theorem exists_rejected {d : Dialect} (hrules : LineFree d.rules ∨ d.rules.backslashEscapes = false)
    {script : List Char} (hblank : ∀ c ∈ script, isBlank c = true → c ∈ plainBlanks)
    (hsevered : Severed d.rules script) {statements : List Statement}
    (hsplit : split d.rules script = .ok statements) :
    ∃ s ∈ statements, ∃ e, Grammar.ofStatement d s = .error e := by
  obtain ⟨u, v, w, rfl, hv, hw, hcut, hline⟩ := hsevered
  obtain ⟨hcontent, a, core, rest, hparts, ha, hopens⟩ := exists_of_cutsAt_newline hv
    (fun c hc => hblank c (by simp [hc])) hline
  obtain ⟨hinit, hquiet⟩ := Holding.init hrules (.cut hcut) hv hline hcontent
  have hholding : Holding d.rules (u ++ [';']) v w :=
    hinit.append ⟨a, core, rest, hparts, hopens⟩ hquiet fun e he => hblank e (by simp [he])
  have hscript : u ++ ';' :: (v ++ '\n' :: w) = u ++ [';'] ++ (v ++ '\n' :: w) := by simp
  rw [hscript] at hsplit
  obtain rfl := split_of_ok hsplit
  rcases hholding with ⟨hpiece, hstart, hkept⟩ | ⟨w', s, hw', hs, hofPiece⟩
  · obtain ⟨s, hofPiece, e, herror⟩ := exists_rejected_piece (d := d) hparts ha hopens hw _
    refine ⟨s, List.mem_append_right _ ?_, e, herror⟩
    rw [hkept, statement?_splitter, if_pos rfl, hpiece, hstart, List.reverse_reverse, hofPiece]
    exact List.mem_singleton_self s
  · obtain ⟨s', hofPiece', e, herror⟩ := exists_rejected_piece (d := d) hparts ha hopens hw' _
    obtain rfl := Option.some.inj (hofPiece.symm.trans hofPiece')
    exact ⟨s, List.mem_append_left _ (List.mem_reverse.2 hs), e, herror⟩

end DdlBridge.Statement
