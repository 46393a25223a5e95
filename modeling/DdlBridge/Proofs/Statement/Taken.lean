import DdlBridge.Proofs.Statement.Reading
import DdlBridge.Token.Lexer

/-!
# What the lexer takes

Behind a quote the lexer takes what scanners read in it, if both know the same escapes
(`readsUpTo_takeQuoted`). The token at the front of a text is known by what it starts with (`read`).
-/

namespace DdlBridge.Statement

open Scanner Text Lexer

variable {rules : LexicalRules} {kind : TokenKind} {c quote : Char} {cs rest : List Char}

/-! ### Quotes -/

theorem closing_ne_backslash (h : opensQuote rules c = true) : closing c ≠ '\\' := by
  simp only [opensQuote, Bool.or_eq_true, Bool.and_eq_true, beq_iff_eq] at h
  obtain ((rfl | rfl) | ⟨-, rfl⟩) | ⟨-, rfl⟩ := h <;> decide

/-- What is taken of a text behind a quote: all up to a closing quote that is not doubled. If nothing
is, then nothing closes the quote, and the text may end inside an escape. -/
def ReadsUpTo (rules : LexicalRules) (quote : Char) (cs : List Char) : Taken → Prop
  | some (text, rest) => ∃ body, text = body ++ [quote] ∧ Enclosed rules quote body ∧
      rest.head? ≠ some quote
  | none => ∃ body, Enclosed rules quote body ∧
      (cs = body ∨ (cs = body ++ ['\\'] ∧ escapesIn rules quote = true))

theorem ReadsUpTo.behind {front : List Char} {t : Taken} (h : ReadsUpTo rules quote cs t)
    (hfront : ∀ body, Enclosed rules quote body → Enclosed rules quote (front ++ body)) :
    ReadsUpTo rules quote (front ++ cs) (t.behind front) := by
  cases t with
  | none =>
    obtain ⟨body, hbody, rfl | ⟨rfl, hopen⟩⟩ := h
    · exact ⟨front ++ cs, hfront cs hbody, .inl rfl⟩
    · exact ⟨front ++ body, hfront body hbody, .inr ⟨by simp, hopen⟩⟩
  | some taken =>
    obtain ⟨body, hbody, henclosed, hrest⟩ := h
    exact ⟨front ++ body, by simp [hbody], hfront body henclosed, hrest⟩

/-- With the escapes of the scanner, the lexer reads on to the quote at which the scanner stops. -/
theorem readsUpTo_takeQuoted (rules : LexicalRules) {quote : Char} (hquote : quote ≠ '\\')
    (cs : List Char) :
    ReadsUpTo rules quote cs (takeQuoted? quote (escapesIn rules quote) cs) := by
  generalize hescapes : escapesIn rules quote = escapes
  fun_induction takeQuoted? quote escapes cs with
  | case1 => exact ⟨[], .nil, .inl rfl⟩
  | case2 c h => exact ⟨[], .nil, .inr ⟨by rw [h.2]; rfl, hescapes.trans h.1⟩⟩
  | case3 => exact ⟨[], by simp, .nil, by simp⟩
  | case4 c hescape hne =>
    exact ⟨[c], .char hne (fun h => hescape ⟨hescapes ▸ h.2, h.1⟩) .nil, .inl rfl⟩
  | case5 c d cs hpair ih =>
    refine ih.behind fun body hbody => ?_
    rcases hpair with ⟨hopen, rfl⟩ | ⟨rfl, rfl⟩
    · exact .escaped hquote.symm (hescapes.trans hopen) hbody
    · exact .doubled hbody
  | case6 d cs hpair =>
    exact ⟨[], rfl, .nil, fun h => hpair (.inr ⟨rfl, Option.some.inj h⟩)⟩
  | case7 c d cs hpair hne ih =>
    refine ih.behind fun body hbody => .char hne (fun h => hpair (.inl ⟨?_, h.1⟩)) hbody
    exact hescapes ▸ h.2

/-! ### Readers -/

/-- Whether a backslash takes the next character with it for the lexer. -/
def lexerEscapes (rules : LexicalRules) (opening : Char) : Bool :=
  opening == '\x27' && rules.backslashEscapes

/-- The reader of tokens of a kind. -/
inductive Reader (rules : LexicalRules) : TokenKind → (List Char → Taken) → Prop where
  | dollar (hrules : rules.dollarQuotes = true) : Reader rules .dollarString takeDollar?
  | delimited {kind : TokenKind} {opening : Char} (hopen : opensQuote rules opening = true)
      (hkind : kind = .string ∨ kind = .quotedIdent) :
      Reader rules kind (takeDelimited? opening (closing opening) (lexerEscapes rules opening))
  | number : Reader rules .number takeNumber?
  | word : Reader rules .word takeWord?

theorem reader_of_mem {take : List Char → Taken} (h : (kind, take) ∈ readers rules) :
    Reader rules kind take := by
  simp only [readers, List.mem_append, List.mem_cons, List.not_mem_nil, or_false, Prod.mk.injEq,
    List.mem_ite_nil_right] at h
  rcases h with ((⟨hrules, rfl, rfl⟩ | ⟨hrules, rfl, rfl⟩) | ⟨hrules, rfl, rfl⟩) |
    ⟨rfl, rfl⟩ | ⟨rfl, rfl⟩ | ⟨rfl, rfl⟩ | ⟨rfl, rfl⟩
  · exact .dollar hrules
  · exact @Reader.delimited rules _ '\x60' (by simp [opensQuote, hrules]) (.inr rfl)
  · exact @Reader.delimited rules _ '[' (by simp [opensQuote, hrules]) (.inr rfl)
  · exact @Reader.delimited rules _ '\x27' (by simp [opensQuote]) (.inl rfl)
  · exact @Reader.delimited rules _ '\x22' (by simp [opensQuote]) (.inr rfl)
  · exact .number
  · exact .word

theorem exists_mem_readers (h : opensQuote rules c = true) :
    ∃ kind, (kind, takeDelimited? c (closing c) (lexerEscapes rules c)) ∈ readers rules := by
  simp only [opensQuote, Bool.or_eq_true, Bool.and_eq_true, beq_iff_eq] at h
  obtain ((rfl | rfl) | ⟨hrules, rfl⟩) | ⟨hrules, rfl⟩ := h
  · exact ⟨.string, by simp [readers, closing, lexerEscapes]⟩
  · exact ⟨.quotedIdent, by simp [readers, closing, lexerEscapes]⟩
  · exact ⟨.quotedIdent, by simp [readers, hrules, closing, lexerEscapes]⟩
  · exact ⟨.quotedIdent, by simp [readers, hrules, closing, lexerEscapes]⟩

theorem firstOf_eq_none_iff {cs : List Char} {rs : List (TokenKind × (List Char → Taken))} :
    firstOf cs rs = none ↔ ∀ r ∈ rs, r.2 cs = none := by
  induction rs with
  | nil => simp [firstOf]
  | cons r rs ih =>
    rw [firstOf, List.forall_mem_cons, ← ih]
    cases r.2 cs with
    | none => simp
    | some taken => simp

/-! ### Tokens -/

/-- What the token at the front of `c :: cs` is, and what is no token there. -/
inductive Read (rules : LexicalRules) (c : Char) (cs : List Char) :
    TokenKind × List Char × List Char → Prop where
  | dollar {tag inner rest : List Char} (hrules : rules.dollarQuotes = true) (hc : c = '$')
      (htag : '$' ∉ tag)
      (hinner : breakOn ('$' :: (tag ++ ['$'])) (inner ++ '$' :: (tag ++ '$' :: rest)) =
        some (inner, rest))
      (hcs : cs = tag ++ '$' :: (inner ++ '$' :: (tag ++ '$' :: rest))) :
      Read rules c cs (.dollarString, (Lexeme.dollar tag inner).text, rest)
  | quoted {kind : TokenKind} {text rest : List Char} (hopen : opensQuote rules c = true)
      (hkind : kind = .string ∨ kind = .quotedIdent)
      (htake : takeQuoted? (closing c) (lexerEscapes rules c) cs = some (text, rest)) :
      Read rules c cs (kind, c :: text, rest)
  | number {text rest : List Char} (htake : takeNumber? (c :: cs) = some (text, rest)) :
      Read rules c cs (.number, text, rest)
  | word (hstart : startsWord c = true) :
      Read rules c cs (.word, c :: cs.takeWhile continuesWord, cs.dropWhile continuesWord)
  | punct (hdollar : rules.dollarQuotes = true → takeDollar? (c :: cs) = none)
      (hquote : opensQuote rules c = true →
        takeQuoted? (closing c) (lexerEscapes rules c) cs = none)
      (hstart : startsWord c = false) : Read rules c cs (.punct, [c], cs)

theorem dollar_of_takeDollar? {text : List Char} (h : takeDollar? (c :: cs) = some (text, rest)) :
    ∃ tag inner, c = '$' ∧ '$' ∉ tag ∧ text = (Lexeme.dollar tag inner).text ∧
      cs = tag ++ '$' :: (inner ++ '$' :: (tag ++ '$' :: rest)) ∧
      breakOn ('$' :: (tag ++ ['$'])) (inner ++ '$' :: (tag ++ '$' :: rest)) = some (inner, rest) := by
  unfold takeDollar? at h
  split at h
  case h_1 more heq =>
    obtain ⟨rfl, rfl⟩ := List.cons.inj heq
    dsimp only at h
    split at h
    case h_1 body hbody =>
      obtain ⟨⟨inner, after⟩, hinner, hpair⟩ := Option.map_eq_some_iff.1 h
      obtain ⟨rfl, rfl⟩ := Prod.mk.inj hpair
      have hsplit := List.takeWhile_append_dropWhile
        (p := fun c => isLetterOrNumeral c || c == '_') (l := cs)
      rw [hbody] at hsplit
      have hwhole := breakOn_eq_some hinner
      refine ⟨cs.takeWhile fun c => isLetterOrNumeral c || c == '_', inner, rfl, fun hmem => ?_,
        ?_, ?_, ?_⟩
      · exact absurd (List.mem_takeWhile_imp hmem) (by decide)
      · simp [Lexeme.text]
      · nth_rewrite 1 [← hsplit]
        rw [hwhole]
        simp
      · rw [hwhole] at hinner
        simpa using hinner
    case h_2 => exact absurd h (by simp)
  case h_2 => exact absurd h (by simp)

theorem digit_of_takeNumber? {text : List Char} (h : takeNumber? cs = some (text, rest)) :
    ∀ d ∈ text, d.isDigit = true ∨ d = '.' := by
  have hdigits : ∀ cs : List Char, ∀ d ∈ cs.takeWhile Char.isDigit, d.isDigit = true ∨ d = '.' :=
    fun cs d hd => .inl (List.mem_takeWhile_imp hd)
  unfold takeNumber? at h
  dsimp only at h
  split at h
  case isTrue => exact absurd h (by simp)
  case isFalse =>
    split at h
    case h_1 =>
      obtain ⟨rfl, -⟩ := Prod.mk.inj (Option.some.inj h)
      simp only [List.forall_mem_append, List.forall_mem_cons]
      exact ⟨hdigits _, .inr trivial, hdigits _⟩
    case h_2 =>
      obtain ⟨rfl, -⟩ := Prod.mk.inj (Option.some.inj h)
      exact hdigits _

theorem read (rules : LexicalRules) (c : Char) (cs : List Char) :
    Read rules c cs (takeToken rules c cs) := by
  unfold takeToken
  cases hfirst : firstOf (c :: cs) (readers rules) with
  | some taken =>
    obtain ⟨kind, text, rest⟩ := taken
    obtain ⟨take, hmem, htake⟩ := mem_of_firstOf hfirst
    rw [Option.getD_some]
    cases reader_of_mem hmem with
    | dollar hrules =>
      obtain ⟨tag, inner, hc, htag, rfl, hcs, hinner⟩ := dollar_of_takeDollar? htake
      exact .dollar hrules hc htag hinner hcs
    | delimited hopen hkind =>
      rw [takeDelimited?] at htake
      split at htake
      case isTrue hc =>
        subst hc
        obtain ⟨inner, hinner, rfl⟩ := Taken.behind_eq_some_iff.1 htake
        exact .quoted hopen hkind hinner
      case isFalse => exact absurd htake (by simp)
    | number => exact .number htake
    | word =>
      rw [takeWord?] at htake
      split at htake
      case isTrue hstart =>
        obtain ⟨rfl, rfl⟩ := Prod.mk.inj (Option.some.inj htake)
        exact .word hstart
      case isFalse => exact absurd htake (by simp)
  | none =>
    rw [firstOf_eq_none_iff] at hfirst
    refine .punct (fun hrules => ?_) (fun hopen => ?_) ?_
    · exact hfirst (.dollarString, takeDollar?) (by simp [readers, hrules])
    · obtain ⟨kind, hmem⟩ := exists_mem_readers hopen
      have htake : takeDelimited? c (closing c) (lexerEscapes rules c) (c :: cs) = none :=
        hfirst _ hmem
      rw [takeDelimited?, if_pos rfl] at htake
      cases hinner : takeQuoted? (closing c) (lexerEscapes rules c) cs with
      | none => rfl
      | some taken =>
        rw [hinner] at htake
        exact absurd htake (by simp [Taken.behind])
    · have hword : takeWord? (c :: cs) = none := hfirst (.word, takeWord?) (by simp [readers])
      rw [takeWord?] at hword
      split at hword
      case isTrue => exact absurd hword (by simp)
      case isFalse h => exact Bool.not_eq_true _ ▸ h

end DdlBridge.Statement
