import DdlBridge.Proofs.Statement.Region

/-!
# Atoms

A text made of atoms that stand apart is cut the same way by the lexer and by scanners: every atom is
one token or a blank to the lexer (`tokensFrom_text`), and a few lexemes to a scanner
(`Apart.script`).
-/

namespace DdlBridge

open Text Lexer Statement Scanner

inductive Atom where
  | blank (c : Char)
  | word (cs : List Char)
  /-- Digits, and perhaps a point and more of them. -/
  | number (whole : List Char) (fraction : Option (List Char))
  | punct (c : Char)
  | quoted (opening : Char) (body : List Char)
  deriving DecidableEq

namespace Atom

def text : Atom → List Char
  | blank c => [c]
  | word cs => cs
  | number whole fraction => whole ++ (fraction.map ('.' :: ·)).getD []
  | punct c => [c]
  | quoted opening body => opening :: (body ++ [closing opening])

/-- What a scanner reads the atom as. -/
def lexemes : Atom → List Lexeme
  | blank c => [.blank c]
  | word cs => [.word cs]
  | number whole none => [.word whole]
  | number whole (some []) => [.word whole, .punct '.']
  | number whole (some fraction) => [.word whole, .punct '.', .word fraction]
  | punct c => [.punct c]
  | quoted opening body => [.quoted opening body]

def kind? : Atom → Option TokenKind
  | blank _ => none
  | word _ => some .word
  | number _ _ => some .number
  | punct _ => some .punct
  | quoted opening _ => some (if opening = '\x27' then .string else .quotedIdent)

/-- The token of an atom at byte `n`. -/
def token? (n : Nat) (a : Atom) : Option Token := a.kind?.map fun kind => ⟨kind, a.text, n⟩

/-- The atom is one under the rules. -/
inductive Formed (rules : LexicalRules) : Atom → Prop where
  | blank {c : Char} (h : c ∈ plainBlanks) : Formed rules (blank c)
  | word {c : Char} {cs : List Char} (hfirst : startsWord c = true)
      (hrest : ∀ d ∈ cs, continuesWord d = true) : Formed rules (word (c :: cs))
  | number {c : Char} {whole : List Char} {fraction : Option (List Char)}
      (hwhole : ∀ d ∈ c :: whole, d.isDigit = true)
      (hfraction : ∀ ds ∈ fraction, ∀ d ∈ ds, d.isDigit = true) :
      Formed rules (number (c :: whole) fraction)
  | punct {c : Char} (h : Lexeme.isPunct rules c = true) (hblank : isBlank c = false)
      (hdollar : rules.dollarQuotes = true → c ≠ '$') : Formed rules (punct c)
  | quoted {opening : Char} {body : List Char} (h : opensQuote rules opening = true)
      (hbody : Enclosed rules (closing opening) body)
      (hescape : opening = '\x22' → rules.backslashEscapes = true → '\\' ∉ body) :
      Formed rules (quoted opening body)

/-- Whether `c` behind the atom is none of it. -/
def endsAt : Atom → Char → Bool
  | blank _, _ => true
  | word _, c => !extendsWord c
  | number _ _, c => !extendsWord c && c != '.'
  | punct d, c => !(d == '-' && c == '-') && !(d == '/' && c == '*')
  | quoted opening _, c => c != closing opening

def textOf (as : List Atom) : List Char := as.flatMap text

def lexemesOf (as : List Atom) : List Lexeme := as.flatMap lexemes

/-- The tokens of atoms that start at byte `n`. -/
def place (n : Nat) : List Atom → List Token
  | [] => []
  | a :: as => (a.token? n).toList ++ place (n + width a.text) as

/-- Atoms in a row that do not run into one another. -/
inductive Apart (rules : LexicalRules) : List Atom → Prop where
  | nil : Apart rules []
  | cons {a : Atom} {as : List Atom} (ha : a.Formed rules)
      (hnext : ∀ c ∈ (textOf as).head?, a.endsAt c = true) (h : Apart rules as) :
      Apart rules (a :: as)

variable {rules : LexicalRules} {a : Atom} {as bs : List Atom}

theorem textOf_cons (a : Atom) (as : List Atom) : textOf (a :: as) = a.text ++ textOf as :=
  List.flatMap_cons

theorem textOf_singleton (a : Atom) : textOf [a] = a.text := List.flatMap_singleton text a

theorem textOf_append (as bs : List Atom) : textOf (as ++ bs) = textOf as ++ textOf bs :=
  List.flatMap_append

theorem lexemesOf_cons (a : Atom) (as : List Atom) :
    lexemesOf (a :: as) = a.lexemes ++ lexemesOf as := List.flatMap_cons

theorem lexemesOf_append (as bs : List Atom) :
    lexemesOf (as ++ bs) = lexemesOf as ++ lexemesOf bs := List.flatMap_append

theorem place_blank (n : Nat) (c : Char) (as : List Atom) :
    place n (blank c :: as) = place (n + width [c]) as := rfl

theorem place_word (n : Nat) (cs : List Char) (as : List Atom) :
    place n (word cs :: as) = ⟨.word, cs, n⟩ :: place (n + width cs) as := rfl

theorem place_of_kind {a : Atom} {kind : TokenKind} (h : a.kind? = some kind) (n : Nat)
    (as : List Atom) : place n (a :: as) = ⟨kind, a.text, n⟩ :: place (n + width a.text) as := by
  rw [place, token?, h]
  rfl

theorem place_append (n : Nat) (as bs : List Atom) :
    place n (as ++ bs) = place n as ++ place (n + width (textOf as)) bs := by
  induction as generalizing n with
  | nil => rfl
  | cons a as ih =>
    rw [List.cons_append, place, place, ih, textOf_cons, width_append, Nat.add_assoc,
      List.append_assoc]

theorem Formed.text_ne_nil (h : a.Formed rules) : a.text ≠ [] := by
  cases h <;> simp [text]

theorem textOf_lexemes (a : Atom) : Statement.textOf a.lexemes = a.text := by
  cases a with
  | number whole fraction =>
    cases fraction with
    | none => simp [lexemes, text, Statement.textOf, Lexeme.text]
    | some ds => cases ds <;> simp [lexemes, text, Statement.textOf, Lexeme.text]
  | _ => simp [lexemes, text, Statement.textOf, Lexeme.text]

theorem textOf_lexemesOf (as : List Atom) : Statement.textOf (lexemesOf as) = textOf as := by
  induction as with
  | nil => rfl
  | cons a as ih =>
    rw [lexemesOf_cons, Statement.textOf, List.flatMap_append]
    rw [Statement.textOf] at ih
    rw [ih, ← Statement.textOf, textOf_lexemes, textOf_cons]

/-! ### Atoms apart -/

/-- The characters that end every atom. -/
def delimiters : List Char := [' ', '\n', ',', '(', ')', ';']

theorem closing_cases (opening : Char) (h : opensQuote rules opening = true) :
    closing opening ∈ ['\x27', '\x22', '\x60', ']'] := by
  simp only [opensQuote, Bool.or_eq_true, Bool.and_eq_true, beq_iff_eq] at h
  obtain ((rfl | rfl) | ⟨-, rfl⟩) | ⟨-, rfl⟩ := h <;> decide

theorem Formed.endsAt (h : a.Formed rules) {c : Char} (hc : c ∈ delimiters) : a.endsAt c = true := by
  cases h with
  | blank => rfl
  | word =>
    have hall : ∀ c ∈ delimiters, (!extendsWord c) = true := by decide
    exact hall c hc
  | number =>
    have hall : ∀ c ∈ delimiters, (!extendsWord c && c != '.') = true := by decide
    exact hall c hc
  | @punct d =>
    have hall : ∀ c ∈ delimiters, (c == '-') = false ∧ (c == '*') = false := by decide
    obtain ⟨hdash, hstar⟩ := hall c hc
    simp [Atom.endsAt, hdash, hstar]
  | @quoted opening body hopen =>
    have hall : ∀ q ∈ ['\x27', '\x22', '\x60', ']'], ∀ c ∈ delimiters, (c != q) = true := by decide
    exact hall _ (closing_cases opening hopen) c hc

theorem Apart.append (has : Apart rules as) (hbs : Apart rules bs)
    (h : ∀ c ∈ (textOf bs).head?, c ∈ delimiters) : Apart rules (as ++ bs) := by
  induction has with
  | nil => exact hbs
  | @cons a as ha hnext _ ih =>
    rw [List.cons_append]
    refine .cons ha (fun c hc => ?_) ih
    rw [textOf_append, List.head?_append] at hc
    cases hhead : (textOf as).head? with
    | some d =>
      rw [hhead] at hc
      exact hnext c (hhead.trans hc)
    | none =>
      rw [hhead] at hc
      exact ha.endsAt (h c hc)

theorem Apart.blank {c : Char} (hc : c ∈ plainBlanks) (h : Apart rules as) :
    Apart rules (blank c :: as) := .cons (.blank hc) (fun _ _ => rfl) h

/-- The punctuation between names. -/
def marks : List Char := [',', '(', ')', ';']

theorem formed_mark (rules : LexicalRules) {c : Char} (hc : c ∈ marks) : (punct c).Formed rules := by
  have hall : ∀ c ∈ marks, opensWord c = false ∧ c ∉ plainBlanks ∧ isBlank c = false ∧
      c ∉ ['\x27', '\x22', '\x60', '[', '#', '$'] := by decide
  obtain ⟨hword, hplain, hblank, hquote⟩ := hall c hc
  simp only [List.mem_cons, List.not_mem_nil, or_false, not_or] at hquote
  obtain ⟨hsingle, hdouble, hback, hbracket, hhash, hdollar⟩ := hquote
  refine .punct ?_ hblank fun _ => hdollar
  simp [Lexeme.isPunct, opensQuote, hword, hplain, hsingle, hdouble, hback, hbracket, hhash]

theorem Apart.mark {c : Char} (hc : c ∈ marks) (h : Apart rules as) :
    Apart rules (punct c :: as) := by
  refine .cons (formed_mark rules hc) (fun d _ => ?_) h
  have hall : ∀ c ∈ marks, (c == '-') = false ∧ (c == '/') = false := by decide
  obtain ⟨hdash, hslash⟩ := hall c hc
  simp [endsAt, hdash, hslash]

/-! ### Lexemes -/

theorem extendsWord_of_continuesWord {c : Char} (h : continuesWord c = true) :
    extendsWord c = true := by
  rcases Nat.lt_or_ge c.toNat 128 with hlt | hge
  · simp only [continuesWord, isLetterOrNumeral, isLetter_of_lt hlt, isNumeral_of_lt hlt,
      Bool.or_eq_true] at h
    simp only [extendsWord, opensWord, Char.isAlphanum, Bool.or_eq_true]
    tauto
  · exact extendsWord_of_le hge

theorem opensWord_of_startsWord {c : Char} (h : startsWord c = true) : opensWord c = true := by
  rcases Nat.lt_or_ge c.toNat 128 with hlt | hge
  · simp only [startsWord, isLetter_of_lt hlt, Bool.or_eq_true] at h
    simp only [opensWord, Char.isAlphanum, Bool.or_eq_true]
    tauto
  · simp [opensWord, hge]

theorem opensWord_of_isDigit {c : Char} (h : c.isDigit = true) : opensWord c = true := by
  simp [opensWord, Char.isAlphanum, h]

theorem extendsWord_of_isDigit {c : Char} (h : c.isDigit = true) : extendsWord c = true := by
  simp [extendsWord, opensWord_of_isDigit h]

theorem isPunct_point (rules : LexicalRules) : Lexeme.isPunct rules '.' = true := by
  simp [Lexeme.isPunct, opensQuote, opensWord, plainBlanks]

theorem script_append {ls ls' : List Lexeme} (hls : Script rules ls) (hls' : Script rules ls')
    (h : ∀ l ∈ ls.getLast?, ∀ c ∈ (Statement.textOf ls').head?, l.endsAt rules c = true) :
    Script rules (ls ++ ls') := by
  induction hls with
  | nil => exact hls'
  | @cons l ls hl hnext hrest ih =>
    cases ls with
    | nil => exact .cons hl (fun c hc => h l rfl c hc) hls'
    | cons l' ls =>
      rw [List.cons_append]
      refine .cons hl (fun c hc => hnext c ?_) (ih fun m hm => h m (by simpa using hm))
      cases hrest with
      | cons hl' =>
        obtain ⟨d, ds, hds⟩ := List.exists_cons_of_ne_nil hl'.text_ne_nil
        rw [List.cons_append, List.flatMap_cons, hds] at hc
        rw [List.flatMap_cons, hds]
        exact hc

theorem Formed.script (h : a.Formed rules) : Script rules a.lexemes := by
  have hsingle : ∀ {l : Lexeme}, l.Formed rules → Script rules [l] :=
    fun hl => .cons hl (fun c hc => absurd hc (by simp)) .nil
  have hdigits : ∀ {c : Char} {cs : List Char}, (∀ d ∈ c :: cs, d.isDigit = true) →
      (Lexeme.word (c :: cs)).Formed rules := by
    intro c cs hcs
    rw [List.forall_mem_cons] at hcs
    exact .word (opensWord_of_isDigit hcs.1) fun d hd => extendsWord_of_isDigit (hcs.2 d hd)
  cases h with
  | blank hc => exact hsingle (.blank hc)
  | word hfirst hrest =>
    exact hsingle (.word (opensWord_of_startsWord hfirst) fun d hd =>
      extendsWord_of_continuesWord (hrest d hd))
  | @number c whole fraction hwhole hfraction =>
    have hpoint : ∀ d ∈ ['.'].head?, (Lexeme.word (c :: whole)).endsAt rules d = true := by
      intro d hd
      obtain rfl := Option.some.inj hd
      rfl
    cases fraction with
    | none => exact hsingle (hdigits hwhole)
    | some ds =>
      cases ds with
      | nil => exact .cons (hdigits hwhole) hpoint (hsingle (.punct (isPunct_point rules)))
      | cons d ds =>
        exact .cons (hdigits hwhole) hpoint (.cons (.punct (isPunct_point rules))
          (fun e he => rfl) (hsingle (hdigits (hfraction _ rfl))))
  | punct hc => exact hsingle (.punct hc)
  | quoted hopen hbody => exact hsingle (.quoted hopen hbody)

theorem Formed.endsAt_lexemes (h : a.Formed rules) {c : Char} (hc : a.endsAt c = true) :
    ∀ l ∈ a.lexemes.getLast?, l.endsAt rules c = true := by
  intro l hl
  cases h with
  | blank =>
    obtain rfl := Option.some.inj hl
    rfl
  | word =>
    obtain rfl := Option.some.inj hl
    exact hc
  | @number d whole fraction =>
    have hword : (!extendsWord c) = true := (Bool.and_eq_true_iff.1 hc).1
    cases fraction with
    | none =>
      obtain rfl := Option.some.inj hl
      exact hword
    | some ds =>
      cases ds with
      | nil =>
        obtain rfl := Option.some.inj hl
        rfl
      | cons e ds =>
        obtain rfl := Option.some.inj hl
        exact hword
  | @punct d hd hblank hdollar =>
    obtain rfl := Option.some.inj hl
    unfold Lexeme.endsAt
    split
    all_goals simp_all [Atom.endsAt]
  | quoted =>
    obtain rfl := Option.some.inj hl
    exact hc

/-- A scanner reads atoms as their lexemes. -/
theorem Apart.script (h : Apart rules as) : Script rules (lexemesOf as) := by
  induction h with
  | nil => exact .nil
  | @cons a as ha hnext _ ih =>
    rw [lexemesOf_cons]
    refine script_append ha.script ih fun l hl c hc => ?_
    rw [textOf_lexemesOf] at hc
    exact ha.endsAt_lexemes (hnext c hc) l hl

/-! ### Tokens -/

theorem takeDelimited?_of_ne {opening c : Char} (h : c ≠ opening) (closing : Char) (escapes : Bool)
    (cs : List Char) : takeDelimited? opening closing escapes (c :: cs) = none := by
  rw [takeDelimited?, if_neg h]

theorem takeDollar?_of_ne {c : Char} (h : c ≠ '$') (cs : List Char) : takeDollar? (c :: cs) = none := by
  unfold takeDollar?
  split
  case h_1 heq => exact absurd (List.cons.inj heq).1 h
  case h_2 => rfl

theorem takeNumber?_of_not_isDigit {c : Char} (h : c.isDigit = false) (cs : List Char) :
    takeNumber? (c :: cs) = none := by
  have hnone : (c :: cs).takeWhile Char.isDigit = [] :=
    List.takeWhile_cons_of_neg (by rw [h]; simp)
  unfold takeNumber?
  dsimp only
  rw [hnone]
  rfl

theorem takeWord?_of_not_startsWord {c : Char} (h : startsWord c = false) (cs : List Char) :
    takeWord? (c :: cs) = none := by
  rw [takeWord?, if_neg (by rw [h]; simp)]

/-- No quote and no dollar quote starts with `c`. -/
structure Bare (rules : LexicalRules) (c : Char) : Prop where
  dollar : rules.dollarQuotes = true → c ≠ '$'
  quote : opensQuote rules c = false

theorem firstOf_dollar {c : Char} {cs : List Char} (h : rules.dollarQuotes = true → c ≠ '$')
    (rs : List (TokenKind × (List Char → Taken))) :
    firstOf (c :: cs) ((if rules.dollarQuotes then [(.dollarString, takeDollar?)] else []) ++ rs) =
      firstOf (c :: cs) rs := by
  split
  case isTrue hrules => rw [List.singleton_append, firstOf, takeDollar?_of_ne (h hrules)]
  case isFalse => rfl

theorem firstOf_delimited {quotes : Bool} {opening c : Char} (h : quotes = false ∨ c ≠ opening)
    (closing : Char) (cs : List Char) (rs : List (TokenKind × (List Char → Taken))) :
    firstOf (c :: cs) ((if quotes then [(.quotedIdent, takeDelimited? opening closing false)]
      else []) ++ rs) = firstOf (c :: cs) rs := by
  split
  case isTrue hquotes =>
    have hc : c ≠ opening := h.resolve_left (by rw [hquotes]; simp)
    rw [List.singleton_append, firstOf, takeDelimited?_of_ne hc]
  case isFalse => rfl

theorem firstOf_of_bare {c : Char} (h : Bare rules c) (cs : List Char) :
    firstOf (c :: cs) (readers rules) =
      firstOf (c :: cs) [(.number, takeNumber?), (.word, takeWord?)] := by
  have hquote := h.quote
  simp only [opensQuote, Bool.or_eq_false_iff, beq_eq_false_iff_ne, Bool.and_eq_false_iff] at hquote
  obtain ⟨⟨⟨hsingle, hdouble⟩, hback⟩, hbracket⟩ := hquote
  rw [readers, List.append_assoc, List.append_assoc, firstOf_dollar h.dollar, firstOf_delimited hback,
    firstOf_delimited hbracket, firstOf, takeDelimited?_of_ne hsingle]
  dsimp only
  rw [firstOf, takeDelimited?_of_ne hdouble]

theorem takeToken_punct {c : Char} (h : Bare rules c) (hdigit : c.isDigit = false)
    (hword : startsWord c = false) (cs : List Char) : takeToken rules c cs = (.punct, [c], cs) := by
  rw [takeToken, firstOf_of_bare h, firstOf, takeNumber?_of_not_isDigit hdigit]
  dsimp only
  rw [firstOf, takeWord?_of_not_startsWord hword]
  rfl

theorem isDigit_of_startsWord {c : Char} (h : startsWord c = true) : c.isDigit = false := by
  rw [Bool.eq_false_iff]
  intro hdigit
  have hlt : c.toNat < 128 := by
    rcases Nat.lt_or_ge c.toNat 128 with hlt | hge
    · exact hlt
    · rw [isDigit_eq_false hge] at hdigit
      exact absurd hdigit (by simp)
  simp only [startsWord, isLetter_of_lt hlt, Bool.or_eq_true, beq_iff_eq] at h
  rcases h with halpha | rfl
  · rw [isAlpha_eq_false_of_isDigit hdigit] at halpha
    contradiction
  · exact absurd hdigit (by decide)

theorem startsWord_of_isAlpha {c : Char} (h : c.isAlpha = true) : startsWord c = true := by
  simp [startsWord, isLetter, h]

theorem takeToken_word {c : Char} (h : Bare rules c) (hfirst : startsWord c = true) (cs : List Char) :
    takeToken rules c cs = (.word, c :: cs.takeWhile continuesWord, cs.dropWhile continuesWord) := by
  rw [takeToken, firstOf_of_bare h, firstOf, takeNumber?_of_not_isDigit (isDigit_of_startsWord hfirst)]
  dsimp only
  rw [firstOf, takeWord?, if_pos hfirst]
  rfl

theorem takeToken_number {c : Char} (h : Bare rules c) {cs text rest : List Char}
    (hnumber : takeNumber? (c :: cs) = some (text, rest)) :
    takeToken rules c cs = (.number, text, rest) := by
  rw [takeToken, firstOf_of_bare h, firstOf, hnumber]
  rfl

/-- The lexer takes what is enclosed, up to the closing quote. -/
theorem takeQuoted?_of_enclosed {quote : Char} {escapes : Bool} {body rest : List Char}
    (hbody : Enclosed rules quote body) (hquote : quote ≠ '\\')
    (hescapes : escapes = escapesIn rules quote ∨ (escapes = false ∧ '\\' ∉ body))
    (hrest : rest.head? ≠ some quote) :
    takeQuoted? quote escapes (body ++ quote :: rest) = some (body ++ [quote], rest) := by
  induction hbody with
  | nil =>
    cases rest with
    | nil => simp [takeQuoted?, hquote]
    | cons d rest =>
      have hd : d ≠ quote := by simpa using hrest
      simp [takeQuoted?, hquote, hd]
  | @char c cs hne hescape _ ih =>
    have htail : escapes = escapesIn rules quote ∨ (escapes = false ∧ '\\' ∉ cs) :=
      hescapes.imp_right fun h => ⟨h.1, fun hmem => h.2 (List.mem_cons_of_mem _ hmem)⟩
    have hplain : ¬ (escapes = true ∧ c = '\\') := by
      rintro ⟨hon, rfl⟩
      rcases hescapes with h | h
      · exact hescape ⟨rfl, h ▸ hon⟩
      · exact absurd (h.1 ▸ hon) (by simp)
    obtain ⟨d, ds, hds⟩ := List.exists_cons_of_ne_nil
      (l := cs ++ quote :: rest) (by simp)
    have hinner := ih htail
    rw [List.cons_append, hds]
    rw [hds] at hinner
    rw [takeQuoted?, if_neg (by simp [hplain, hne]), if_neg hne, hinner]
    rfl
  | @doubled cs _ ih =>
    have htail : escapes = escapesIn rules quote ∨ (escapes = false ∧ '\\' ∉ cs) :=
      hescapes.imp_right fun h => ⟨h.1, fun hmem => h.2 (by simp [hmem])⟩
    rw [List.cons_append, List.cons_append, takeQuoted?, if_pos (.inr ⟨rfl, rfl⟩), ih htail]
    rfl
  | @escaped c cs hne hescape _ ih =>
    have hon : escapes = escapesIn rules quote :=
      hescapes.resolve_right fun h => h.2 List.mem_cons_self
    rw [List.cons_append, List.cons_append, takeQuoted?,
      if_pos (.inl ⟨hon.trans hescape, rfl⟩), ih (.inl hon)]
    rfl

theorem takeDelimited?_of_enclosed {opening quote : Char} {escapes : Bool} {body rest : List Char}
    (hbody : Enclosed rules quote body) (hquote : quote ≠ '\\')
    (hescapes : escapes = escapesIn rules quote ∨ (escapes = false ∧ '\\' ∉ body))
    (hrest : rest.head? ≠ some quote) :
    takeDelimited? opening quote escapes (opening :: (body ++ quote :: rest)) =
      some (opening :: (body ++ [quote]), rest) := by
  rw [takeDelimited?, if_pos rfl, takeQuoted?_of_enclosed hbody hquote hescapes hrest]
  rfl

theorem takeToken_quoted {opening : Char} {body rest : List Char}
    (h : opensQuote rules opening = true) (hbody : Enclosed rules (closing opening) body)
    (hescape : opening = '\x22' → rules.backslashEscapes = true → '\\' ∉ body)
    (hrest : rest.head? ≠ some (closing opening)) :
    takeToken rules opening (body ++ closing opening :: rest) =
      (if opening = '\x27' then .string else .quotedIdent,
        opening :: (body ++ [closing opening]), rest) := by
  have hclosing := closing_ne_backslash h
  have hplain : escapesIn rules (closing opening) = false →
      takeDelimited? opening (closing opening) false (opening :: (body ++ closing opening :: rest)) =
        some (opening :: (body ++ [closing opening]), rest) := fun hoff =>
    takeDelimited?_of_enclosed hbody hclosing (.inl hoff.symm) hrest
  have hquotes := h
  simp only [opensQuote, Bool.or_eq_true, Bool.and_eq_true, beq_iff_eq] at hquotes
  rw [takeToken, readers, List.append_assoc, List.append_assoc]
  obtain ((rfl | rfl) | ⟨hrules, rfl⟩) | ⟨hrules, rfl⟩ := hquotes
  · have htake : takeDelimited? '\x27' '\x27' rules.backslashEscapes
        ('\x27' :: (body ++ '\x27' :: rest)) = some ('\x27' :: (body ++ ['\x27']), rest) :=
      takeDelimited?_of_enclosed hbody hclosing (.inl (by simp [escapesIn])) hrest
    rw [firstOf_dollar (fun _ => by decide), firstOf_delimited (.inr (by decide)),
      firstOf_delimited (.inr (by decide)), firstOf]
    rw [show closing '\x27' = '\x27' from rfl, htake]
    rfl
  · have hescapes : false = escapesIn rules '\x22' ∨ (false = false ∧ '\\' ∉ body) := by
      cases hon : rules.backslashEscapes with
      | true => exact .inr ⟨rfl, hescape rfl hon⟩
      | false => exact .inl (by simp [escapesIn, hon])
    have htake : takeDelimited? '\x22' '\x22' false ('\x22' :: (body ++ '\x22' :: rest)) =
        some ('\x22' :: (body ++ ['\x22']), rest) :=
      takeDelimited?_of_enclosed hbody hclosing hescapes hrest
    rw [firstOf_dollar (fun _ => by decide), firstOf_delimited (.inr (by decide)),
      firstOf_delimited (.inr (by decide)), firstOf, takeDelimited?_of_ne (by decide)]
    dsimp only
    rw [show closing '\x22' = '\x22' from rfl, firstOf, htake]
    rfl
  · have htake := hplain (by simp [escapesIn, closing])
    rw [firstOf_dollar (fun _ => by decide), if_pos hrules, List.singleton_append]
    rw [show closing '\x60' = '\x60' from rfl] at htake ⊢
    rw [firstOf, htake]
    rfl
  · have htake := hplain (by simp [escapesIn, closing])
    rw [firstOf_dollar (fun _ => by decide), firstOf_delimited (.inr (by decide)), if_pos hrules,
      List.singleton_append]
    rw [show closing '[' = ']' from rfl] at htake ⊢
    rw [firstOf, htake]
    rfl

/-! ### Segments of atoms -/

/-- No comment starts with `c` in front of `cs`. -/
theorem takeComment?_of {c : Char} {cs : List Char} (hdash : c = '-' → cs.head? ≠ some '-')
    (hslash : c = '/' → cs.head? ≠ some '*') (hhash : rules.hashComments = true → c ≠ '#') :
    takeComment? rules.hashComments (c :: cs) = none := by
  unfold takeComment?
  split
  case h_1 heq =>
    obtain ⟨rfl, rfl⟩ := List.cons.inj heq
    exact absurd rfl (hdash rfl)
  case h_2 heq =>
    obtain ⟨rfl, rfl⟩ := List.cons.inj heq
    exact absurd rfl (hslash rfl)
  case h_3 heq =>
    obtain ⟨rfl, rfl⟩ := List.cons.inj heq
    rw [if_neg fun hrules => absurd rfl (hhash hrules)]
  case h_4 => rfl

theorem takeSegment_of_token {c : Char} {cs text rest : List Char} {kind : TokenKind}
    (hblank : isBlank c = false) (hcomment : takeComment? rules.hashComments (c :: cs) = none)
    (htoken : takeToken rules c cs = (kind, text, rest)) :
    takeSegment rules c cs = (.token kind, text, rest) := by
  rw [takeSegment, if_neg (by rw [hblank]; simp), hcomment, htoken]

/-- The code points of white space. -/
def blankCodes : List Nat :=
  [9, 10, 11, 12, 13, 32, 0x85, 0xA0, 0x1680, 0x2000, 0x2001, 0x2002, 0x2003, 0x2004, 0x2005, 0x2006,
   0x2007, 0x2008, 0x2009, 0x200A, 0x2028, 0x2029, 0x202F, 0x205F, 0x3000]

theorem mem_blankCodes {c : Char} (h : isBlank c = true) : c.toNat ∈ blankCodes := by
  simp only [isBlank, covers, blankRanges, List.any_cons, List.any_nil, Bool.or_false,
    Bool.or_eq_true, Bool.and_eq_true, decide_eq_true_eq] at h
  simp only [blankCodes, List.mem_cons, List.not_mem_nil, or_false]
  omega

/-- White space is in no word. -/
theorem not_blank_of_continuesWord {c : Char} (h : continuesWord c = true) : isBlank c = false := by
  have hall : ∀ n ∈ blankCodes, continuesWord (Char.ofNat n) = false := by decide +kernel
  rw [Bool.eq_false_iff]
  intro hblank
  have hnot := hall c.toNat (mem_blankCodes hblank)
  rw [Char.ofNat_toNat, h] at hnot
  exact absurd hnot (by simp)

theorem continuesWord_of_startsWord {c : Char} (h : startsWord c = true) : continuesWord c = true := by
  rw [startsWord, Bool.or_eq_true] at h
  rw [continuesWord, isLetterOrNumeral]
  rcases h with h | h <;> simp [h]

/-- White space is neither in words nor in numbers. -/
theorem not_blank_of_word {c : Char} (h : startsWord c = true ∨ c.isDigit = true) :
    isBlank c = false := by
  refine not_blank_of_continuesWord ?_
  rcases h with h | h
  · exact continuesWord_of_startsWord h
  · simp [continuesWord, isLetterOrNumeral, isNumeral, h]

theorem ne_of_word {c d : Char} (h : startsWord c = true ∨ c.isDigit = true)
    (hd : startsWord d = false ∧ d.isDigit = false) : c ≠ d := by
  rintro rfl
  simp [hd.1, hd.2] at h

theorem bare_of_word {c : Char} (h : startsWord c = true ∨ c.isDigit = true) : Bare rules c := by
  refine ⟨fun _ => ne_of_word h (by decide), ?_⟩
  have hsingle : c ≠ '\x27' := ne_of_word h (by decide)
  have hdouble : c ≠ '\x22' := ne_of_word h (by decide)
  have hback : c ≠ '\x60' := ne_of_word h (by decide)
  have hbracket : c ≠ '[' := ne_of_word h (by decide)
  simp [opensQuote, hsingle, hdouble, hback, hbracket]

theorem takeComment?_of_word {c : Char} (h : startsWord c = true ∨ c.isDigit = true)
    (cs : List Char) : takeComment? rules.hashComments (c :: cs) = none :=
  takeComment?_of (fun heq => absurd heq (ne_of_word h (by decide)))
    (fun heq => absurd heq (ne_of_word h (by decide))) fun _ => ne_of_word h (by decide)

theorem takeNumber?_of_digits {whole rest : List Char} {fraction : Option (List Char)}
    (hne : whole ≠ []) (hwhole : ∀ d ∈ whole, d.isDigit = true)
    (hfraction : ∀ ds ∈ fraction, ∀ d ∈ ds, d.isDigit = true)
    (hrest : ∀ c ∈ rest.head?, c.isDigit = false ∧ c ≠ '.') :
    takeNumber? ((number whole fraction).text ++ rest) =
      some ((number whole fraction).text, rest) := by
  have hend : ∀ c ∈ rest.head?, c.isDigit = false := fun c hc => (hrest c hc).1
  have hwhole' : whole.isEmpty = false := by simpa using hne
  cases fraction with
  | none =>
    have hsplit := takeWhile_append_of_head hwhole hend
    unfold takeNumber?
    simp only [text, Option.map_none, Option.getD_none, List.append_nil, hsplit.1, hsplit.2, hwhole']
    cases rest with
    | nil => rfl
    | cons c rest =>
      have hpoint : c ≠ '.' := (hrest c rfl).2
      split
      case isTrue h => exact absurd h (by simp)
      case isFalse =>
        split
        case h_1 heq => exact absurd (List.cons.inj heq).1 hpoint
        case h_2 => rfl
  | some ds =>
    have hpoint : ∀ c ∈ ('.' :: (ds ++ rest)).head?, c.isDigit = false := by
      intro c hc
      obtain rfl := Option.some.inj hc
      rfl
    have hsplit := takeWhile_append_of_head hwhole hpoint
    have hsplit' := takeWhile_append_of_head (hfraction ds rfl) hend
    have htext : (number whole (some ds)).text ++ rest = whole ++ '.' :: (ds ++ rest) := by
      simp [text]
    unfold takeNumber?
    simp only [htext, hsplit.1, hsplit.2, hwhole', hsplit'.1, hsplit'.2]
    simp [text]

theorem takeSegment_word {c : Char} {cs rest : List Char} (hfirst : startsWord c = true)
    (hcs : ∀ d ∈ cs, continuesWord d = true) (hrest : ∀ e ∈ rest.head?, continuesWord e = false) :
    takeSegment rules c (cs ++ rest) = (.token .word, c :: cs, rest) := by
  have hsplit := takeWhile_append_of_head hcs hrest
  refine takeSegment_of_token (not_blank_of_word (.inl hfirst)) (takeComment?_of_word (.inl hfirst) _) ?_
  rw [takeToken_word (bare_of_word (.inl hfirst)) hfirst, hsplit.1, hsplit.2]

theorem takeSegment_number {c : Char} {whole cs rest : List Char} {fraction : Option (List Char)}
    (hwhole : ∀ d ∈ c :: whole, d.isDigit = true)
    (hfraction : ∀ ds ∈ fraction, ∀ d ∈ ds, d.isDigit = true)
    (hrest : ∀ e ∈ rest.head?, e.isDigit = false ∧ e ≠ '.')
    (htext : (number (c :: whole) fraction).text ++ rest = c :: cs) :
    takeSegment rules c cs = (.token .number, (number (c :: whole) fraction).text, rest) := by
  have hdigit : c.isDigit = true := hwhole c List.mem_cons_self
  have hnumber := takeNumber?_of_digits (List.cons_ne_nil c whole) hwhole hfraction hrest
  rw [htext] at hnumber
  exact takeSegment_of_token (not_blank_of_word (.inr hdigit)) (takeComment?_of_word (.inr hdigit) _)
    (takeToken_number (bare_of_word (.inr hdigit)) hnumber)

theorem takeSegment_punct {c : Char} {cs : List Char} (h : Lexeme.isPunct rules c = true)
    (hblank : isBlank c = false) (hdollar : rules.dollarQuotes = true → c ≠ '$')
    (hdash : c = '-' → cs.head? ≠ some '-') (hslash : c = '/' → cs.head? ≠ some '*') :
    takeSegment rules c cs = (.token .punct, [c], cs) := by
  simp only [Lexeme.isPunct, Bool.and_eq_true, Bool.not_eq_true'] at h
  obtain ⟨⟨⟨hword, -⟩, hquote⟩, hhash⟩ := h
  have hdigit : c.isDigit = false := by
    rw [Bool.eq_false_iff]
    intro hdigit
    rw [opensWord_of_isDigit hdigit] at hword
    exact absurd hword (by simp)
  have hstart : startsWord c = false := by
    rw [Bool.eq_false_iff]
    intro hstart
    rw [opensWord_of_startsWord hstart] at hword
    exact absurd hword (by simp)
  refine takeSegment_of_token hblank (takeComment?_of hdash hslash ?_)
    (takeToken_punct ⟨hdollar, hquote⟩ hdigit hstart _)
  rintro hrules rfl
  simp [hrules] at hhash

theorem takeSegment_quoted {opening : Char} {body rest : List Char}
    (hopen : opensQuote rules opening = true) (hbody : Enclosed rules (closing opening) body)
    (hescape : opening = '\x22' → rules.backslashEscapes = true → '\\' ∉ body)
    (hrest : rest.head? ≠ some (closing opening)) :
    takeSegment rules opening (body ++ closing opening :: rest) =
      (.token (if opening = '\x27' then .string else .quotedIdent),
        opening :: (body ++ [closing opening]), rest) := by
  have hne : isBlank opening = false ∧ opening ∉ ['-', '/', '#'] := by
    have hquotes := hopen
    simp only [opensQuote, Bool.or_eq_true, Bool.and_eq_true, beq_iff_eq] at hquotes
    obtain ((rfl | rfl) | ⟨-, rfl⟩) | ⟨-, rfl⟩ := hquotes <;> decide
  simp only [List.mem_cons, List.not_mem_nil, or_false, not_or] at hne
  exact takeSegment_of_token hne.1 (takeComment?_of (fun heq => absurd heq hne.2.1)
    (fun heq => absurd heq hne.2.2.1) fun _ => hne.2.2.2) (takeToken_quoted hopen hbody hescape hrest)

/-- The lexer takes an atom as one segment. -/
theorem Formed.takeSegment (h : a.Formed rules) {c : Char} {cs rest : List Char}
    (htext : a.text ++ rest = c :: cs) (hnext : ∀ d ∈ rest.head?, a.endsAt d = true) :
    takeSegment rules c cs = ((a.kind?.map SegmentKind.token).getD .blank, a.text, rest) := by
  cases h with
  | blank hc =>
    obtain ⟨rfl, rfl⟩ := List.cons.inj htext
    rw [Lexer.takeSegment, if_pos (isBlank_of_mem_plainBlanks hc)]
    rfl
  | @word d ds hfirst hrest =>
    obtain ⟨rfl, rfl⟩ := List.cons.inj htext
    refine takeSegment_word hfirst hrest fun e he => ?_
    have hnot := hnext e he
    rw [Bool.eq_false_iff]
    intro hcontinues
    simp [Atom.endsAt, extendsWord_of_continuesWord hcontinues] at hnot
  | @number d whole fraction hwhole hfraction =>
    obtain rfl : d = c := (List.cons.inj htext).1
    refine takeSegment_number hwhole hfraction (fun e he => ?_) htext
    have hnot := hnext e he
    simp only [Atom.endsAt, Bool.and_eq_true, Bool.not_eq_true', bne_iff_ne] at hnot
    refine ⟨?_, hnot.2⟩
    rw [Bool.eq_false_iff]
    intro hdigit
    rw [extendsWord_of_isDigit hdigit] at hnot
    exact absurd hnot.1 (by simp)
  | @punct d hd hblank hdollar =>
    obtain ⟨rfl, rfl⟩ := List.cons.inj htext
    refine takeSegment_punct hd hblank hdollar ?_ ?_
    · rintro rfl hdash
      exact absurd (hnext '-' hdash) (by decide)
    · rintro rfl hstar
      exact absurd (hnext '*' hstar) (by decide)
  | @quoted opening body hopen hbody hescape =>
    have happend : (Atom.quoted opening body).text ++ rest =
        opening :: (body ++ closing opening :: rest) := by simp [text]
    rw [happend] at htext
    obtain ⟨rfl, rfl⟩ := List.cons.inj htext
    refine takeSegment_quoted hopen hbody hescape fun heq => ?_
    have hnot := hnext _ heq
    simp [Atom.endsAt] at hnot

/-- The lexer reads atoms as their tokens. -/
theorem Apart.tokensFrom (h : Apart rules as) (n : Nat) :
    tokensFrom rules n (textOf as) = place n as := by
  induction h generalizing n with
  | nil => exact tokensFrom_nil rules n
  | @cons a as ha hnext _ ih =>
    obtain ⟨c, cs, hcs⟩ := List.exists_cons_of_ne_nil ha.text_ne_nil
    have hsplit : textOf (a :: as) = c :: (cs ++ textOf as) := by
      rw [textOf_cons, hcs, List.cons_append]
    have hfront : a.text ++ textOf as = c :: (cs ++ textOf as) := by rw [hcs, List.cons_append]
    have hsegment := ha.takeSegment hfront hnext
    rw [hsplit, tokensFrom_cons, hsegment, place]
    dsimp only
    rw [ih]
    congr 1
    cases a <;> rfl

end Atom

end DdlBridge
