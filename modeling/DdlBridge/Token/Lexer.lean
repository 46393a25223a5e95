import DdlBridge.Dialect
import DdlBridge.Error
import DdlBridge.Text.Numeral
import DdlBridge.Token.Basic

/-!
# Tokenizing

Every reader splits its input into what it takes and what it leaves, so no character is lost:
`takeTrivia_append`, `takeToken_append`. A text that no reader takes is an error, but there is none,
because the last reader takes any character: reading tokens always succeeds (`readTokens_eq`).
-/

namespace DdlBridge.Lexer

open Text

/-- Up to the end of the line. There is no such end if the first line-end character met is a
carriage return that no line feed follows. -/
def takeLine? : List Char → Taken
  | [] => some ([], [])
  | '\n' :: cs => some ([], '\n' :: cs)
  | '\r' :: '\n' :: cs => some ([], '\r' :: '\n' :: cs)
  | c :: cs => if c = '\r' then none else (takeLine? cs).behind [c]

/-- A comment at the start of the input. -/
def takeComment? (hash : Bool) : List Char → Taken
  | '-' :: '-' :: cs => (takeLine? cs).behind ['-', '-']
  | '/' :: '*' :: cs =>
    (breakOn ['*', '/'] cs).map fun (body, rest) => ('/' :: '*' :: (body ++ ['*', '/']), rest)
  | '#' :: cs => if hash then (takeLine? cs).behind ['#'] else none
  | _ => none

theorem takeLine?_append {cs line rest : List Char} (h : takeLine? cs = some (line, rest)) :
    line ++ rest = cs := by
  fun_induction takeLine? cs generalizing line with
  | case1 => simp_all
  | case2 cs => simp_all
  | case3 cs => simp_all
  | case4 => simp at h
  | case5 c cs _ _ _ ih =>
    obtain ⟨inner, hinner, rfl⟩ := Taken.behind_eq_some_iff.1 h
    simp [ih hinner]

/-- What every reader does: it takes a first part that is not empty. -/
def Splits (take : List Char → Taken) : Prop :=
  ∀ cs text rest, take cs = some (text, rest) → text ≠ [] ∧ text ++ rest = cs

theorem splits_takeComment? (hash : Bool) : Splits (takeComment? hash) := by
  intro cs text rest h
  unfold takeComment? at h
  split at h
  · obtain ⟨inner, hinner, rfl⟩ := Taken.behind_eq_some_iff.1 h
    simp [takeLine?_append hinner]
  · obtain ⟨⟨inner, after⟩, hinner, hpair⟩ := Option.map_eq_some_iff.1 h
    simp only [Prod.mk.injEq] at hpair
    obtain ⟨rfl, rfl⟩ := hpair
    simp [breakOn_eq_some hinner]
  · split at h
    · obtain ⟨inner, hinner, rfl⟩ := Taken.behind_eq_some_iff.1 h
      simp [takeLine?_append hinner]
    · simp at h
  · simp at h

/-- White space and comments at the start of the input. -/
def takeTrivia (hash : Bool) (cs : List Char) : List Char × List Char :=
  match h : takeComment? hash (cs.dropWhile isBlank) with
  | some (comment, after) =>
    have : after.length < cs.length := by
      obtain ⟨hne, happ⟩ := splits_takeComment? hash _ _ _ h
      have h₁ := congrArg List.length happ
      have h₂ := List.length_pos_iff.2 hne
      have h₃ := (List.dropWhile_sublist isBlank (l := cs)).length_le
      simp only [List.length_append] at h₁
      omega
    let more := takeTrivia hash after
    (cs.takeWhile isBlank ++ comment ++ more.1, more.2)
  | none => (cs.takeWhile isBlank, cs.dropWhile isBlank)
termination_by cs.length

theorem takeTrivia_append (hash : Bool) (cs : List Char) :
    (takeTrivia hash cs).1 ++ (takeTrivia hash cs).2 = cs := by
  fun_induction takeTrivia hash cs with
  | case1 cs comment after h _ more ih =>
    simp only [List.append_assoc, more, ih, (splits_takeComment? hash _ _ _ h).2]
    exact List.takeWhile_append_dropWhile
  | case2 cs h => exact List.takeWhile_append_dropWhile

/-- A quoted region behind its opening quote, up to the first closing quote that is not doubled.
With `escapes`, a backslash takes the next character with it. -/
def takeQuoted? (closing : Char) (escapes : Bool) : List Char → Taken
  | [] => none
  | [c] => if escapes ∧ c = '\\' then none else if c = closing then some ([c], []) else none
  | c :: d :: cs =>
    if (escapes ∧ c = '\\') ∨ (c = closing ∧ d = closing) then
      (takeQuoted? closing escapes cs).behind [c, d]
    else if c = closing then some ([c], d :: cs)
    else (takeQuoted? closing escapes (d :: cs)).behind [c]

/-- A region between `opening` and `closing`. -/
def takeDelimited? (opening closing : Char) (escapes : Bool) :
    List Char → Taken
  | [] => none
  | c :: cs =>
    if c = opening then (takeQuoted? closing escapes cs).behind [c] else none

/-- `$tag$ … $tag$`. -/
def takeDollar? : List Char → Taken
  | '$' :: cs =>
    let tag := cs.takeWhile fun c => isLetterOrNumeral c || c == '_'
    match cs.dropWhile fun c => isLetterOrNumeral c || c == '_' with
    | '$' :: body =>
      let delimiter := '$' :: (tag ++ ['$'])
      (breakOn delimiter body).map fun (inner, rest) => (delimiter ++ inner ++ delimiter, rest)
    | _ => none
  | _ => none

/-- Digits, with at most one point and more digits behind them. -/
def takeNumber? (cs : List Char) : Taken :=
  let whole := cs.takeWhile Char.isDigit
  if whole.isEmpty then none
  else match cs.dropWhile Char.isDigit with
    | '.' :: rest => some (whole ++ '.' :: rest.takeWhile Char.isDigit, rest.dropWhile Char.isDigit)
    | rest => some (whole, rest)

def startsWord (c : Char) : Bool := isLetter c || c == '_'

def continuesWord (c : Char) : Bool := isLetterOrNumeral c || c == '_' || c == '$' || c == '#'

def takeWord? : List Char → Taken
  | [] => none
  | c :: cs =>
    if startsWord c then some (c :: cs.takeWhile continuesWord, cs.dropWhile continuesWord)
    else none

/-- The first reader that takes something. -/
def firstOf (cs : List Char) :
    List (TokenKind × (List Char → Taken)) →
    Option (TokenKind × List Char × List Char)
  | [] => none
  | (kind, take) :: readers =>
    match take cs with
    | some (text, rest) => some (kind, text, rest)
    | none => firstOf cs readers

/-- The readers of a dialect, in the order they are tried. -/
def readers (rules : LexicalRules) :
    List (TokenKind × (List Char → Taken)) :=
  (if rules.dollarQuotes then [(.dollarString, takeDollar?)] else []) ++
  (if rules.backtickQuotes then [(.quotedIdent, takeDelimited? '\x60' '\x60' false)] else []) ++
  (if rules.bracketQuotes then [(.quotedIdent, takeDelimited? '[' ']' false)] else []) ++
  [(.string, takeDelimited? '\x27' '\x27' rules.backslashEscapes),
   (.quotedIdent, takeDelimited? '\x22' '\x22' false),
   (.number, takeNumber?),
   (.word, takeWord?)]

/-- One token from `c :: cs`, which has no trivia in front. -/
def takeToken (rules : LexicalRules) (c : Char) (cs : List Char) :
    TokenKind × List Char × List Char :=
  (firstOf (c :: cs) (readers rules)).getD (.punct, [c], cs)

theorem splits_takeQuoted? (closing : Char) (escapes : Bool) :
    Splits (takeQuoted? closing escapes) := by
  intro cs text rest h
  fun_induction takeQuoted? closing escapes cs generalizing text with
  | case1 => simp at h
  | case2 => simp at h
  | case3 => grind
  | case4 => simp at h
  | case5 c d cs _ ih =>
    obtain ⟨inner, hinner, rfl⟩ := Taken.behind_eq_some_iff.1 h
    simp [(ih _ hinner).2]
  | case6 => grind
  | case7 c d cs _ _ ih =>
    obtain ⟨inner, hinner, rfl⟩ := Taken.behind_eq_some_iff.1 h
    simp [(ih _ hinner).2]

theorem splits_takeDelimited? (opening closing : Char) (escapes : Bool) :
    Splits (takeDelimited? opening closing escapes) := by
  intro cs text rest h
  cases cs with
  | nil => simp [takeDelimited?] at h
  | cons c cs =>
    rw [takeDelimited?] at h
    split at h
    · obtain ⟨inner, hinner, rfl⟩ := Taken.behind_eq_some_iff.1 h
      simp [(splits_takeQuoted? _ _ _ _ _ hinner).2]
    · simp at h

theorem splits_takeDollar? : Splits takeDollar? := by
  intro cs text rest h
  unfold takeDollar? at h
  split at h
  · rename_i cs
    simp only at h
    split at h
    · rename_i body hbody
      obtain ⟨⟨t, r⟩, ht, hpair⟩ := Option.map_eq_some_iff.1 h
      simp only [Prod.mk.injEq] at hpair
      obtain ⟨rfl, rfl⟩ := hpair
      refine ⟨by simp, ?_⟩
      have := List.takeWhile_append_dropWhile
        (p := fun c => isLetterOrNumeral c || c == '_') (l := cs)
      rw [hbody, breakOn_eq_some ht] at this
      simpa using this
    · simp at h
  · simp at h

theorem splits_takeNumber? : Splits takeNumber? := by
  intro cs text rest h
  have hcs := List.takeWhile_append_dropWhile (p := Char.isDigit) (l := cs)
  unfold takeNumber? at h
  simp only at h
  split at h
  · simp at h
  · rename_i hne
    have hne : cs.takeWhile Char.isDigit ≠ [] := by simpa using hne
    split at h
    · rename_i tail htail
      simp only [Option.some.injEq, Prod.mk.injEq] at h
      obtain ⟨rfl, rfl⟩ := h
      refine ⟨by simp, ?_⟩
      rw [htail] at hcs
      simpa using hcs
    · simp only [Option.some.injEq, Prod.mk.injEq] at h
      obtain ⟨rfl, rfl⟩ := h
      exact ⟨hne, hcs⟩

theorem splits_takeWord? : Splits takeWord? := by
  intro cs text rest h
  cases cs with
  | nil => simp [takeWord?] at h
  | cons c cs =>
    rw [takeWord?] at h
    split at h
    · simp only [Option.some.injEq, Prod.mk.injEq] at h
      obtain ⟨rfl, rfl⟩ := h
      simp
    · simp at h

theorem splits_of_mem_readers {rules : LexicalRules} {kind : TokenKind}
    {take : List Char → Taken} (h : (kind, take) ∈ readers rules) :
    Splits take := by
  simp only [readers, List.mem_append, List.mem_cons, List.not_mem_nil, or_false,
    Prod.mk.injEq] at h
  rcases h with ((h | h) | h) | h | h | h | h
  · split at h
    · simp only [List.mem_cons, List.not_mem_nil, or_false, Prod.mk.injEq] at h
      exact h.2 ▸ splits_takeDollar?
    · simp at h
  · split at h
    · simp only [List.mem_cons, List.not_mem_nil, or_false, Prod.mk.injEq] at h
      exact h.2 ▸ splits_takeDelimited? _ _ _
    · simp at h
  · split at h
    · simp only [List.mem_cons, List.not_mem_nil, or_false, Prod.mk.injEq] at h
      exact h.2 ▸ splits_takeDelimited? _ _ _
    · simp at h
  · exact h.2 ▸ splits_takeDelimited? _ _ _
  · exact h.2 ▸ splits_takeDelimited? _ _ _
  · exact h.2 ▸ splits_takeNumber?
  · exact h.2 ▸ splits_takeWord?

theorem mem_of_firstOf {cs text rest : List Char} {kind : TokenKind}
    {rs : List (TokenKind × (List Char → Taken))}
    (h : firstOf cs rs = some (kind, text, rest)) :
    ∃ take, (kind, take) ∈ rs ∧ take cs = some (text, rest) := by
  induction rs with
  | nil => simp [firstOf] at h
  | cons r rs ih =>
    obtain ⟨k, take⟩ := r
    rw [firstOf] at h
    split at h
    · rename_i t r ht
      simp only [Option.some.injEq, Prod.mk.injEq] at h
      obtain ⟨rfl, rfl, rfl⟩ := h
      exact ⟨take, by simp, ht⟩
    · obtain ⟨take', hmem, htake⟩ := ih h
      exact ⟨take', by simp [hmem], htake⟩

theorem takeToken_append (rules : LexicalRules) (c : Char) (cs : List Char) :
    (takeToken rules c cs).2.1 ≠ [] ∧
      (takeToken rules c cs).2.1 ++ (takeToken rules c cs).2.2 = c :: cs := by
  unfold takeToken
  cases h : firstOf (c :: cs) (readers rules) with
  | none => simp
  | some out =>
    obtain ⟨kind, text, rest⟩ := out
    obtain ⟨take, hmem, htake⟩ := mem_of_firstOf h
    exact splits_of_mem_readers hmem _ _ _ htake

theorem length_takeToken_lt (rules : LexicalRules) (c : Char) (cs : List Char) :
    (takeToken rules c cs).2.2.length < cs.length + 1 := by
  obtain ⟨hne, happ⟩ := takeToken_append rules c cs
  have h₁ := congrArg List.length happ
  have h₂ := List.length_pos_iff.2 hne
  simp only [List.length_append, List.length_cons] at h₁
  omega

theorem length_takeTrivia_le (hash : Bool) (cs : List Char) :
    (takeTrivia hash cs).2.length ≤ cs.length := by
  have := congrArg List.length (takeTrivia_append hash cs)
  simp only [List.length_append] at this
  omega

/-- The tokens of `cs`, which starts at byte `offset`. -/
def tokensFrom (rules : LexicalRules) (offset : Nat) (cs : List Char) : List Token :=
  match h : (takeTrivia rules.hashComments cs).2 with
  | [] => []
  | c :: rest =>
    have : (takeToken rules c rest).2.2.length < cs.length := by
      have h₁ := length_takeToken_lt rules c rest
      have h₂ := length_takeTrivia_le rules.hashComments cs
      rw [h, List.length_cons] at h₂
      omega
    let start := offset + width (takeTrivia rules.hashComments cs).1
    let taken := takeToken rules c rest
    ⟨taken.1, taken.2.1, start⟩ :: tokensFrom rules (start + width taken.2.1) taken.2.2
termination_by cs.length

/-- Any one character. -/
def takeChar? : List Char → Taken
  | [] => none
  | c :: cs => some ([c], cs)

/-- The token at the front of a text, if a reader takes one. -/
def readToken? (rules : LexicalRules) (cs : List Char) : Option (TokenKind × List Char × List Char) :=
  firstOf cs (readers rules ++ [(.punct, takeChar?)])

theorem firstOf_append (cs : List Char) (rs rs' : List (TokenKind × (List Char → Taken))) :
    firstOf cs (rs ++ rs') = (firstOf cs rs).or (firstOf cs rs') := by
  induction rs with
  | nil => rfl
  | cons r rs ih =>
    rw [List.cons_append, firstOf, firstOf, ih]
    cases r.2 cs with
    | none => rfl
    | some taken => rfl

theorem readToken?_cons (rules : LexicalRules) (c : Char) (cs : List Char) :
    readToken? rules (c :: cs) = some (takeToken rules c cs) := by
  rw [readToken?, firstOf_append, takeToken]
  cases firstOf (c :: cs) (readers rules) with
  | none => rfl
  | some taken => rfl

/-- The tokens of `cs`, which starts at byte `offset`. A text that no reader takes is rejected. -/
def readFrom (rules : LexicalRules) (offset : Nat) (cs : List Char) : Except Error (List Token) :=
  match h : (takeTrivia rules.hashComments cs).2 with
  | [] => .ok []
  | c :: rest =>
    let start := offset + width (takeTrivia rules.hashComments cs).1
    match hread : readToken? rules (c :: rest) with
    | none => .error (.malformed start "unreadable token")
    | some (kind, text, after) =>
      have : after.length < cs.length := by
        rw [readToken?_cons] at hread
        have h₁ := length_takeToken_lt rules c rest
        have h₂ := length_takeTrivia_le rules.hashComments cs
        rw [h, List.length_cons] at h₂
        rw [Option.some.inj hread] at h₁
        exact Nat.lt_of_lt_of_le h₁ h₂
      (readFrom rules (start + width text) after).map (⟨kind, text, start⟩ :: ·)
termination_by cs.length

/-- The last reader leaves no text unread. -/
theorem readFrom_eq (rules : LexicalRules) (offset : Nat) (cs : List Char) :
    readFrom rules offset cs = .ok (tokensFrom rules offset cs) := by
  fun_induction tokensFrom rules offset cs with
  | case1 offset cs h =>
    rw [readFrom]
    split
    case h_1 => rfl
    case h_2 h' => exact absurd (h.symm.trans h') (by simp)
  | case2 offset cs c rest h _ start taken ih =>
    rw [readFrom]
    split
    case h_1 h' => exact absurd (h.symm.trans h') (by simp)
    case h_2 c' rest' h' =>
      obtain ⟨rfl, rfl⟩ := List.cons.inj (h.symm.trans h')
      dsimp only
      split
      case h_1 hread => exact absurd ((readToken?_cons rules c rest).symm.trans hread) (by simp)
      case h_2 kind text after hread =>
        have htaken : takeToken rules c rest = (kind, text, after) :=
          Option.some.inj ((readToken?_cons rules c rest).symm.trans hread)
        simp only [taken, start, htaken] at ih ⊢
        rw [ih]
        rfl

end Lexer

def tokenize (dialect : Dialect) (text : List Char) : List Token :=
  Lexer.tokensFrom dialect.rules 0 text

/-- The tokens of a statement, or where it cannot be read. -/
def readTokens (dialect : Dialect) (text : List Char) : Except Error (List Token) :=
  Lexer.readFrom dialect.rules 0 text

theorem readTokens_eq (dialect : Dialect) (text : List Char) :
    readTokens dialect text = .ok (tokenize dialect text) :=
  Lexer.readFrom_eq dialect.rules 0 text

end DdlBridge
