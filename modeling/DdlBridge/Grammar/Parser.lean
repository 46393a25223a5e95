import DdlBridge.Dialect
import DdlBridge.Error
import DdlBridge.Token.Basic

/-!
# Parsers over the tokens of one statement

A parser reads tokens from the front of a list. It also sees the text they came from, because
expressions are returned as they were written.
-/

namespace DdlBridge

/-- What the grammar objects to. -/
inductive Problem where
  | unexpectedStatement (start : String)
  | incompleteCreate
  | noColumns (table : String)
  | duplicateColumn (column table : String)
  | textAfterTable (table : String)
  | missingSemicolon (table : String)
  | expectedConstraint
  | expectedNullOrDefault
  | expectedAction
  | expectedType (column : String)
  | expectedAs (view : String)
  | noQuery (view : String)
  | noBody (trigger : String)
  | expectedTiming
  | expectedEvent
  | expectedWords (words : List String)
  | expectedPunct (c : Char)
  | expectedIdent
  | expectedDefault
  | expectedNumber
  | expectedInteger
  | unbalanced
  deriving DecidableEq, Repr

def Problem.text : Problem → String
  | unexpectedStatement start => "unexpected statement starting with '" ++ start ++ "'"
  | incompleteCreate => "incomplete CREATE statement"
  | noColumns table => "table '" ++ table ++ "' has no columns"
  | duplicateColumn column table => "duplicate column '" ++ column ++ "' in table '" ++ table ++ "'"
  | textAfterTable table => "unexpected text after table '" ++ table ++ "'"
  | missingSemicolon table => "missing ';' after table '" ++ table ++ "'"
  | expectedConstraint => "expected a table constraint"
  | expectedNullOrDefault => "expected NULL or DEFAULT after SET"
  | expectedAction => "expected a referential action"
  | expectedType column => "expected a data type for column '" ++ column ++ "'"
  | expectedAs view => "expected AS in view '" ++ view ++ "'"
  | noQuery view => "view '" ++ view ++ "' has no query"
  | noBody trigger => "trigger '" ++ trigger ++ "' has no body"
  | expectedTiming => "expected BEFORE, AFTER or INSTEAD OF"
  | expectedEvent => "expected INSERT, UPDATE or DELETE"
  | expectedWords words => "expected " ++ Text.joinWith " " words
  | expectedPunct c => "expected '" ++ String.singleton c ++ "'"
  | expectedIdent => "expected an identifier"
  | expectedDefault => "expected a default value"
  | expectedNumber => "expected a number"
  | expectedInteger => "expected an integer"
  | unbalanced => "unbalanced parenthesis"

/-- Whether the message quotes the token it points at. -/
def Problem.quotesToken : Problem → Bool
  | duplicateColumn _ _ | unbalanced => false
  | _ => true

/-- A problem and the token it is met at; none at the end of the statement. -/
structure Complaint where
  problem : Problem
  token : Option Token
  deriving DecidableEq, Repr

def Complaint.text (e : Complaint) : String :=
  if e.problem.quotesToken then
    match e.token with
    | some t => e.problem.text ++ " near '" ++ String.ofList t.text ++ "'"
    | none => e.problem.text ++ " at end of statement"
  else e.problem.text

/-- The error in a script in which the statement `text` starts at byte `base`. -/
def Complaint.error (base : Nat) (text : List Char) (e : Complaint) : Error :=
  .malformed (base + (e.token.map (·.offset)).getD (Text.width text)) e.text

/-- What a parser knows beside the tokens. -/
structure Source where
  text : List Char
  dialect : Dialect

def Parser (α : Type) := Source → List Token → Except Complaint (α × List Token)

namespace Parser

instance : Monad Parser where
  pure a := fun _ ts => .ok (a, ts)
  bind p f := fun src ts =>
    match p src ts with
    | .ok (a, rest) => f a src rest
    | .error e => .error e

variable {α σ : Type}

/-- Objects at the current token. -/
def fail (problem : Problem) : Parser α := fun _ ts => .error ⟨problem, ts.head?⟩

def source : Parser Source := fun src ts => .ok (src, ts)

def tokens : Parser (List Token) := fun _ ts => .ok (ts, ts)

def peek : Parser (Option Token) := fun _ ts => .ok (ts.head?, ts)

def peekAt (n : Nat) : Parser (Option Token) := fun _ ts => .ok (ts[n]?, ts)

def peekKeyword : Parser String := fun _ ts => .ok ((ts.head?.map (·.keyword)).getD "", ts)

def peekIsPunct (c : Char) : Parser Bool := fun _ ts => .ok (ts.head?.any (·.isPunct c), ts)

/-- Steps over a token, if there is one. -/
def advance : Parser Unit := fun _ ts => .ok ((), ts.tail)

/-- Whether the tokens start with these keywords. -/
def startsWith : List String → List Token → Bool
  | [], _ => true
  | _ :: _, [] => false
  | w :: ws, t :: ts => t.isWord w && startsWith ws ts

/-- Reads all the keywords or none. -/
def eatWords (words : List String) : Parser Bool := fun _ ts =>
  if startsWith words ts then .ok (true, ts.drop words.length) else .ok (false, ts)

def eatWord (word : String) : Parser Bool := eatWords [word]

/-- Reads one of the keywords. -/
def eatAny (words : List String) : Parser (Option String) := fun _ ts =>
  match ts with
  | t :: rest => if t.keyword ∈ words then .ok (some t.keyword, rest) else .ok (none, ts)
  | [] => .ok (none, ts)

def expectWords (words : List String) : Parser Unit := do
  unless ← eatWords words do fail (.expectedWords words)

def expectWord (word : String) : Parser Unit := expectWords [word]

def eatPunct (c : Char) : Parser Bool := fun _ ts =>
  match ts with
  | t :: rest => if t.isPunct c then .ok (true, rest) else .ok (false, ts)
  | [] => .ok (false, ts)

def expectPunct (c : Char) : Parser Unit := do
  unless ← eatPunct c do fail (.expectedPunct c)

def ident : Parser String := fun _ ts =>
  match ts with
  | t :: rest =>
    match t.ident? with
    | some name => .ok (name, rest)
    | none => .error ⟨.expectedIdent, some t⟩
  | [] => .error ⟨.expectedIdent, none⟩

/-- Repeats `step` until it declines or reads nothing. -/
def many (step : σ → Parser (Option σ)) (s : σ) : Parser σ := fun src ts =>
  match step s src ts with
  | .error e => .error e
  | .ok (none, rest) => .ok (s, rest)
  | .ok (some s', rest) => if rest.length < ts.length then many step s' src rest else .ok (s', rest)
termination_by _ ts => ts.length

/-- A name, of which only the last part is kept if it is qualified. -/
def objectName : Parser String := do
  many (fun _ => do if ← eatPunct '.' then some <$> ident else return none) (← ident)

/-- Behind an opening parenthesis: the one that closes it, and what follows. -/
def closing? : Nat → List Token → Option (Token × List Token)
  | _, [] => none
  | depth, t :: ts =>
    if t.isPunct '(' then closing? (depth + 1) ts
    else if t.isPunct ')' then
      match depth with
      | 0 => some (t, ts)
      | depth + 1 => closing? depth ts
    else closing? depth ts

/-- The text inside a balanced pair of parentheses. -/
def parenthesized : Parser (List Char) := fun src ts =>
  match ts with
  | t :: rest =>
    if t.isPunct '(' then
      match closing? 0 rest with
      | some (close, rest) => .ok (Text.trim (Text.slice t.stop close.offset src.text), rest)
      | none => .error ⟨.unbalanced, some t⟩
    else .error ⟨.expectedPunct '(', some t⟩
  | [] => .error ⟨.expectedPunct '(', none⟩

/-- Steps over a pair of parentheses, if there is one here. -/
def skipParenthesized : Parser Unit := do
  if ← peekIsPunct '(' then discard parenthesized

/-- The nesting depth behind a token. -/
def depthAfter (depth : Nat) (t : Token) : Nat :=
  if t.isPunct '(' then depth + 1 else if t.isPunct ')' then depth - 1 else depth

/-- Whether a token ends the current element of a table. -/
def endsElement (t : Token) : Bool := t.isPunct ',' || t.isPunct ')'

/-- The rest of the current table element is behind this many tokens. -/
def elementRest : Nat → List Token → List Token
  | _, [] => []
  | depth, t :: ts =>
    if depth = 0 ∧ endsElement t then t :: ts else elementRest (depthAfter depth t) ts

def skipElement : Parser Unit := fun _ ts => .ok ((), elementRest 0 ts)

/-- The words that end the default value of a column. -/
def columnKeywords : List String :=
  ["NOT", "NULL", "PRIMARY", "UNIQUE", "CHECK", "REFERENCES", "CONSTRAINT", "COLLATE", "COMMENT",
   "AUTO_INCREMENT", "AUTOINCREMENT", "IDENTITY", "GENERATED", "ON", "ENABLE", "DISABLE"]

/-- Splits off the tokens of a default value. A column keyword ends it, unless it is the first
token or stands inside parentheses. -/
def takeDefault (depth : Nat) (first : Bool) : List Token → List Token × List Token
  | [] => ([], [])
  | t :: ts =>
    if depth = 0 ∧ (endsElement t ∨ (!first ∧ t.keyword ∈ columnKeywords)) then ([], t :: ts)
    else
      let (taken, rest) := takeDefault (depthAfter depth t) false ts
      (t :: taken, rest)

/-- A default value as written. -/
def defaultExpression : Parser (List Char) := fun src ts =>
  match takeDefault 0 true ts with
  | (t :: taken, rest) =>
    .ok (Text.slice t.offset ((t :: taken).getLast (by simp)).stop src.text, rest)
  | ([], _) => .error ⟨.expectedDefault, ts.head?⟩

/-- The value of a number token whose digits are `digits`, kept within 64 bits. -/
def clamped (negative : Bool) (digits : List Char) : Int64 :=
  let n := (Text.natural? digits).getD 0
  let value : Int := if negative then -n else n
  Int64.ofInt (max Int64.minValue.toInt (min value Int64.maxValue.toInt))

/-- An integer with an optional sign. A word that touches it is the exponent of a number that is
no integer. -/
def signedNumber : Parser Int64 := do
  let negative ← eatPunct '-'
  unless negative do discard (eatPunct '+')
  match ← tokens with
  | t :: rest =>
    if t.kind ≠ .number then fail .expectedNumber
    else if '.' ∈ t.text ∨ rest.head?.any (fun u => u.kind == .word && u.offset == t.stop) then
      fail .expectedInteger
    else
      advance
      return clamped negative t.text
  | [] => fail .expectedNumber

/-- All the text that is left. -/
def remainder : Parser (List Char) := fun src ts =>
  match ts with
  | t :: _ => .ok (Text.trim (Text.dropBytes t.offset src.text), [])
  | [] => .ok ([], [])

/-- Names in parentheses; the length and the order of an index column are dropped. -/
def columnList : Parser (List String) := do
  expectPunct '('
  let column : Parser String := do
    let name ← ident
    skipParenthesized
    discard (eatAny ["ASC", "DESC"])
    return name
  let first ← column
  let names ← many (fun names => do
    if ← eatPunct ',' then return some (names ++ [← column]) else return none) [first]
  expectPunct ')'
  return names

end Parser

end DdlBridge
