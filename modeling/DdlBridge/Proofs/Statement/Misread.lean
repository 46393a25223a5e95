import DdlBridge.Proofs.Statement.Lexing
import DdlBridge.Proofs.Token.Atom

/-!
# Misread segments

A scanner of a MySQL or Postgres script and the lexer part over a few segments: a `#` comment or a
dollar quote right behind a word, a tag that only one of them takes for one, and a backslash between
double quotes. Everything else that the lexer takes (`read`) the scanner takes alike, and where the
lexer finds nothing that closes a region the scanner ends inside it.
-/

namespace DdlBridge.Statement

open Scanner Text Lexer

/-! ### What is misread -/

/-- Whether a scanner is in a word behind a segment. `word` says so of the front of the segment. -/
def inWord (word : Bool) (seg : Segment) : Bool :=
  match seg.kind with
  | .blank | .token .word | .token .number | .token .punct =>
    if seg.text = ['$'] ∨ seg.text = ['#'] then word else seg.text.getLast?.any extendsWord
  | _ => false

/-- Whether a scanner takes a text for the tag of a dollar quote. -/
def isTag (tag : List Char) : Bool := tag.all Lexeme.inTag && !tag.head?.any Char.isDigit

/-- Whether the tag that a scanner looks for behind a `$` breaks off at a `#`. To the lexer the tag
and the `#` are one word, and the scanner is in none. -/
def breaksOff (behind : List Char) : Bool :=
  isTag (behind.takeWhile Lexeme.inTag) && !(behind.takeWhile Lexeme.inTag).isEmpty &&
    (behind.dropWhile Lexeme.inTag).head? == some '#'

/-- Whether a scanner reads a segment in front of `behind` otherwise than the lexer. -/
def misread (rules : LexicalRules) (word : Bool) (seg : Segment) (behind : List Char) : Bool :=
  match seg.kind, seg.text with
  | .comment, c :: _ => word && c == '#'
  | .token .dollarString, _ :: cs => word || !isTag (cs.takeWhile (· != '$'))
  | .token _, '\x22' :: cs => rules.backslashEscapes &&
      takeQuoted? '\x22' true (cs ++ behind) != takeQuoted? '\x22' false (cs ++ behind)
  | .token _, '$' :: _ => rules.dollarQuotes && breaksOff behind
  | _, _ => false

def firstMisread? (rules : LexicalRules) (word : Bool) : List Segment → Option Segment
  | [] => none
  | seg :: segs =>
    if misread rules word seg (segs.flatMap Segment.text) then some seg
    else firstMisread? rules (inWord word seg) segs

/-- What starts at byte `offset` of a script lies in front of every misread segment. -/
def Agreed (d : Dialect) (script : List Char) (offset : Nat) : Prop :=
  ∀ seg ∈ firstMisread? d.rules false (segmentsFrom d.rules 0 script), offset < seg.offset

/-- The kinds of segments in which no statement may end. -/
def literalKinds : List SegmentKind :=
  [.comment, .token .string, .token .quotedIdent, .token .dollarString]

variable {rules : LexicalRules} {s : Scanner} {word : Bool} {c : Char} {cs cs' rest : List Char}

/-! ### Needles -/

theorem not_infix_of_breakOn_none {needle cs : List Char} (h : breakOn needle cs = none) :
    ¬ needle <:+: cs := by
  induction cs with
  | nil =>
    rw [List.infix_nil]
    rintro rfl
    exact absurd h (by simp [breakOn])
  | cons c cs ih =>
    obtain ⟨hfront, hrest⟩ := breakOn_cons_eq_none_iff.1 h
    rw [List.infix_cons_iff, not_or, ← List.isPrefixOf_iff_prefix]
    exact ⟨by simp [hfront], ih hrest⟩

/-- What `breakOn` finds is the first that there is. -/
theorem not_infix_of_breakOn {needle cs before after : List Char} (hneedle : needle ≠ [])
    (h : breakOn needle cs = some (before, after)) : ¬ needle <:+: before ++ needle.dropLast := by
  induction cs generalizing before with
  | nil =>
    rw [breakOn, if_neg (by simpa using hneedle)] at h
    exact absurd h (by simp)
  | cons c cs ih =>
    have hwhole := breakOn_eq_some h
    rw [breakOn] at h
    split at h
    case isTrue =>
      obtain ⟨rfl, -⟩ := Prod.mk.inj (Option.some.inj h)
      intro hinfix
      have hlength := hinfix.length_le
      have hpos := List.length_pos_iff.2 hneedle
      rw [List.nil_append, List.length_dropLast] at hlength
      omega
    case isFalse hnot =>
      obtain ⟨inner, hinner, rfl⟩ := Taken.behind_eq_some_iff.1 h
      rw [List.singleton_append, List.cons_append, List.infix_cons_iff, not_or]
      refine ⟨fun hprefix => hnot (List.isPrefixOf_iff_prefix.2 ?_), ih hinner⟩
      refine hprefix.trans ?_
      rw [hwhole]
      simpa using List.prefix_append_of_prefix (List.dropLast_prefix needle)

/-- The first that there is, is what `breakOn` finds. -/
theorem breakOn_of_not_infix {needle body : List Char} (hneedle : needle ≠ [])
    (h : ¬ needle <:+: body ++ needle.dropLast) (rest : List Char) :
    breakOn needle (body ++ needle ++ rest) = some (body, rest) := by
  induction body with
  | nil =>
    obtain ⟨d, needle, rfl⟩ := List.exists_cons_of_ne_nil hneedle
    have hprefix : (d :: needle).isPrefixOf (d :: (needle ++ rest)) = true :=
      List.isPrefixOf_iff_prefix.2 ⟨rest, rfl⟩
    rw [List.nil_append, List.cons_append, breakOn, if_pos hprefix, List.length_cons,
      List.drop_succ_cons, List.drop_left]
  | cons c body ih =>
    rw [List.cons_append, List.infix_cons_iff, not_or] at h
    refine breakOn_cons_of_not ?_ (ih h.2)
    rw [← Bool.not_eq_true, List.isPrefixOf_iff_prefix]
    intro hprefix
    refine h.1 (List.prefix_of_prefix_length_le hprefix ?_ ?_)
    · show (c :: body) ++ needle.dropLast <+: (c :: body) ++ needle ++ rest
      rw [List.append_assoc]
      exact (List.prefix_append_right_inj _).2
        ((List.dropLast_prefix needle).trans (List.prefix_append needle rest))
    · have hpos := List.length_pos_iff.2 hneedle
      rw [List.length_cons, List.length_append, List.length_dropLast]
      omega

/-- What a needle has no part of stands between its occurrences. -/
theorem infix_append_cons_iff {needle front rest : List Char} {c : Char} (hc : c ∉ needle) :
    needle <:+: front ++ c :: rest ↔ needle <:+: front ∨ needle <:+: rest := by
  constructor
  · rintro ⟨before, after, h⟩
    rcases List.append_eq_append_iff.1 h with ⟨m, hfront, -⟩ | ⟨m, hbefore, hrest⟩
    · exact .inl ⟨before, m, hfront.symm⟩
    · cases m with
      | nil => exact .inl ⟨before, [], by rw [List.append_nil] at hbefore ⊢; exact hbefore⟩
      | cons d m =>
        obtain ⟨rfl, rfl⟩ := List.cons.inj hrest
        rcases List.append_eq_append_iff.1 hbefore with ⟨k, -, hinner⟩ | ⟨k, -, hinner⟩
        · exact absurd (by rw [hinner]; simp) hc
        · cases k with
          | nil => exact absurd (by rw [← List.nil_append needle, ← hinner]; simp) hc
          | cons e k =>
            obtain ⟨-, rfl⟩ := List.cons.inj hinner
            exact .inr ⟨k, after, rfl⟩
  · rintro (h | h)
    · exact h.trans (List.prefix_append _ _).isInfix
    · exact h.trans ((List.suffix_cons c rest).trans (List.suffix_append front _)).isInfix

/-! ### What closes a region -/

theorem isTag_iff {tag : List Char} : isTag tag = true ↔
    (∀ c ∈ tag, Lexeme.inTag c = true) ∧ ∀ c ∈ tag.head?, c.isDigit = false := by
  simp only [isTag, Bool.and_eq_true, List.all_eq_true, Bool.not_eq_true', Option.any_eq_false,
    Option.mem_def]

theorem unfinished_of_takeQuoted (hs : Settled s) {opening : Char}
    (hopen : opensQuote s.rules opening = true)
    (h : takeQuoted? (closing opening) (escapesIn s.rules (closing opening)) cs = none) :
    (feedText s (opening :: cs)).1.unfinished? ≠ none := by
  have hfound := readsUpTo_takeQuoted s.rules (closing_ne_backslash hopen) cs
  rw [h] at hfound
  obtain ⟨body, hbody, rfl | ⟨rfl, hescapes⟩⟩ := hfound
  · exact unfinished_of_enclosed hs hopen hbody
  · obtain ⟨hword, hsymbol⟩ := stepSymbol_of_opensQuote hopen
    obtain ⟨line, hinside⟩ := feedText_enclosed (s := s.enterQuote (closing opening))
      (closing_of_opensQuote hopen) hbody rfl rfl rfl
    simp only [escapesIn, Bool.and_eq_true, Bool.or_eq_true, beq_iff_eq] at hescapes
    have hslash : (feedChar { s.enterQuote (closing opening) with line } '\\').1.region =
        .escape (closing opening) := by
      rw [feedChar_of_lt _ (by decide)]
      simp only [step, enterQuote]
      rw [if_neg (closing_ne_backslash hopen).symm, if_pos ⟨trivial, hescapes⟩]
    rw [feedText_cons_of_uncut ((hs.stepNormal hword).trans hsymbol), feedText_append, hinside,
      feedText_singleton]
    simp [Scanner.unfinished?, hslash]

/-- A tag that is followed by no second one opens a literal that nothing closes. -/
theorem unfinished_of_tag {tag body : List Char} (htag : isTag tag = true)
    (hregion : s.region = .dollarTag []) (hbody : breakOn ('$' :: (tag ++ ['$'])) body = none) :
    (feedText s (tag ++ '$' :: body)).1.unfinished? ≠ none := by
  obtain ⟨hin, hfirst⟩ := isTag_iff.1 htag
  obtain ⟨line, htagged⟩ := feedText_dollarTag [] hin (fun _ => hfirst) hregion
  have hentered : feedChar { s with region := .dollarTag ([] ++ tag), line } '$' =
      ({ s with region := .dollar tag none, line, lineQuoted := true }, false) := by
    rw [feedChar_of_lt _ (by decide)]
    rfl
  obtain ⟨line', hinside⟩ := feedText_dollar
    (s := { s with region := .dollar tag none, line, lineQuoted := true }) hin rfl rfl
    (not_infix_of_breakOn_none hbody)
  rw [feedText_append, htagged, feedText_cons_of_uncut hentered, hinside]
  simp [Scanner.unfinished?]

/-! ### What the lexer takes -/

/-- A quote that is not misread is closed alike for the scanner and the lexer. -/
theorem takeQuoted_of_not_misread {kind : TokenKind} {text behind : List Char} {offset : Nat}
    (hopen : opensQuote rules c = true) (hkind : kind ≠ .dollarString)
    (h : misread rules word ⟨.token kind, c :: text, offset⟩ behind = false) :
    takeQuoted? (closing c) (escapesIn rules (closing c)) (text ++ behind) =
      takeQuoted? (closing c) (lexerEscapes rules c) (text ++ behind) := by
  simp only [opensQuote, Bool.or_eq_true, Bool.and_eq_true, beq_iff_eq] at hopen
  obtain ((rfl | rfl) | ⟨-, rfl⟩) | ⟨-, rfl⟩ := hopen
  · simp [closing, escapesIn, lexerEscapes]
  · cases hescapes : rules.backslashEscapes with
    | false => simp [closing, escapesIn, lexerEscapes, hescapes]
    | true =>
      have heq : takeQuoted? '\x22' true (text ++ behind) =
          takeQuoted? '\x22' false (text ++ behind) := by
        cases kind <;> simp_all [misread]
      simpa [closing, escapesIn, lexerEscapes, hescapes] using heq
  · simp [closing, escapesIn, lexerEscapes]
  · simp [closing, escapesIn, lexerEscapes]

theorem plain_of_digit (h : c.isDigit = true ∨ c = '.') :
    inert rules c = true ∧ c ≠ '$' ∧ c ≠ '#' := by
  refine ⟨?_, ?_, ?_⟩
  · exact inert_of_digit h
  · rintro rfl
    exact absurd h (by decide)
  · rintro rfl
    exact absurd h (by decide)

theorem isWordByte_of_opensWord (s : Scanner) (h : opensWord c = true) : s.isWordByte c = true := by
  simp only [opensWord, Bool.or_eq_true] at h
  simp only [isWordByte, Bool.or_eq_true]
  exact .inl h

theorem inWord_word (offset : Nat) (hopens : opensWord c = true)
    (hcs : ∀ d ∈ cs, extendsWord d = true) :
    inWord word ⟨.token .word, c :: cs, offset⟩ = true := by
  have hnot : ¬ (c :: cs = ['$'] ∨ c :: cs = ['#']) := by
    rintro (heq | heq) <;> obtain ⟨rfl, -⟩ := List.cons.inj heq <;> exact absurd hopens (by decide)
  rw [inWord, if_neg hnot, List.getLast?_eq_some_getLast (List.cons_ne_nil c cs), Option.any_some]
  rcases List.mem_cons.1 (List.getLast_mem (List.cons_ne_nil c cs)) with heq | hmem
  · rw [heq, extendsWord, hopens]
    rfl
  · exact hcs _ hmem

theorem takeWhile_tag {tag : List Char} (htag : '$' ∉ tag) (cs : List Char) :
    (tag ++ '$' :: cs).takeWhile (· != '$') = tag := by
  have hne : ∀ c ∈ tag, (c != '$') = true := by
    intro c hc
    rw [bne_iff_ne]
    rintro rfl
    exact htag hc
  rw [List.takeWhile_append_of_pos hne]
  simp

theorem takeDollar?_eq_none {tag body : List Char} (htag : ∀ c ∈ tag, Lexeme.inTag c = true)
    (h : takeDollar? ('$' :: (tag ++ '$' :: body)) = none) :
    breakOn ('$' :: (tag ++ ['$'])) body = none := by
  have hin : ∀ c ∈ tag, (isLetterOrNumeral c || c == '_') = true := by
    intro c hc
    have hc := htag c hc
    simp only [Lexeme.inTag, Bool.or_eq_true] at hc
    simp only [isLetterOrNumeral, isLetter, isNumeral, Bool.or_eq_true]
    tauto
  have hstop : (isLetterOrNumeral '$' || '$' == '_') = false := by decide
  rw [takeDollar?] at h
  dsimp only at h
  rw [List.takeWhile_append_of_pos hin, List.dropWhile_append_of_pos hin,
    List.takeWhile_cons_of_neg (by rw [hstop]; simp), List.dropWhile_cons_of_neg (by rw [hstop]; simp),
    List.append_nil] at h
  exact Option.map_eq_none_iff.1 h

end DdlBridge.Statement
