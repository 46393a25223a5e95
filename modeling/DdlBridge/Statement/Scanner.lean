import DdlBridge.Dialect
import DdlBridge.Error

/-!
# Statement boundaries

A scanner reads a script byte by byte and says after each byte whether a statement has just ended
there. No statement ends inside a literal, a quoted identifier, a comment or an open block, so a
stream may be cut wherever the scanner says so.

A byte is read as the character with its number; every byte above ASCII belongs to a word.
-/

namespace DdlBridge

/-- The lexical region a scanner is in. -/
inductive Region where
  | normal
  /-- Behind `-`, which may open a line comment. -/
  | dash
  /-- Behind `/`, which may open a block comment. -/
  | slash
  | lineComment
  | blockComment
  /-- Behind a `*` of a block comment. -/
  | blockCommentStar
  | quote (closing : Char)
  /-- Behind a closing quote, which a second one turns into an escaped quote. -/
  | quoteEnd (closing : Char)
  /-- Behind a backslash of a literal. -/
  | escape (closing : Char)
  /-- Inside the tag of `$tag$`. -/
  | dollarTag (tag : List Char)
  /-- Inside a dollar-quoted literal; `found` counts the tag characters met behind a `$`. -/
  | dollar (tag : List Char) (found : Option Nat)
  deriving DecidableEq, Repr

/-- The token before the current word. -/
inductive Previous where
  | start
  | word (text : String)
  | punct (c : Char)
  | quoted
  deriving DecidableEq, Repr

structure Scanner where
  rules : LexicalRules
  region : Region := .normal
  /-- The word in progress in upper case, last byte first. -/
  word : List Char := []
  /-- The first words of the statement. -/
  head : List String := []
  /-- The number of its words. -/
  words : Nat := 0
  previous : Previous := .start
  parens : Nat := 0
  /-- Open blocks. -/
  depth : Nat := 0
  /-- `END` was read, and the next word decides what it closes. -/
  pendingEnd : Bool := false
  /-- The statement is a stored unit that only a `/` line ends. -/
  storedUnit : Bool := false
  /-- The statement holds more than white space and comments. -/
  content : Bool := false
  /-- The same of the statement that ended last. -/
  lastContent : Bool := false
  /-- The current line without blanks and comments, last byte first. -/
  line : List Char := []
  /-- A quoted region touches the current line. -/
  lineQuoted : Bool := false
  deriving DecidableEq, Repr

namespace Scanner

/-- Words longer than this are no keywords. -/
def maxWord : Nat := 16

/-- How many of the first words of a statement are looked at. -/
def maxHead : Nat := 5

/-- Behind these words a bare `BEGIN` is a name. -/
def nameWords : List String :=
  ["OF", "ON", "TABLE", "TRIGGER", "PROCEDURE", "PROC", "FUNCTION", "EVENT", "WHEN", "WHERE", "SET",
   "SELECT", "INTO", "BY", "AND", "OR", "NOT", "COLUMN"]

/-- Objects that have no procedural body. -/
def plainObjects : List String :=
  ["TABLE", "VIEW", "INDEX", "SEQUENCE", "SCHEMA", "DATABASE", "TYPE", "DOMAIN", "EXTENSION",
   "ROLE", "USER"]

def routines : List String := ["TRIGGER", "PROCEDURE", "PROC", "FUNCTION", "EVENT"]

def storedUnits : List String := ["TRIGGER", "PROCEDURE", "FUNCTION", "PACKAGE", "TYPE"]

/-- Whether a routine is named before any plain object. -/
def namesRoutine : List String → Bool
  | [] => false
  | w :: ws => if w ∈ routines then true else if w ∈ plainObjects then false else namesRoutine ws

/-- Whether a statement that starts with these words may hold a block. -/
def mayHoldBlock : List String → Bool
  | "IF" :: _ | "WHILE" :: _ | "ELSE" :: _ => true
  | "CREATE" :: ws | "ALTER" :: ws => namesRoutine ws
  | _ => false

/-- Whether a statement that starts with these words is a stored unit or an anonymous block. -/
def isStoredUnit : List String → Bool
  | "BEGIN" :: _ | "DECLARE" :: _ => true
  | "CREATE" :: ws =>
    let ws := if ws.head? = some "OR" then ws.drop 2 else ws
    match ws with
    | "EDITIONABLE" :: w :: _ | "NONEDITIONABLE" :: w :: _ | w :: _ => w ∈ storedUnits
    | [] => false
  | _ => false

def closeBlock (s : Scanner) : Scanner := { s with depth := s.depth - 1 }

/-- Whether the `BEGIN` just read starts a block rather than naming something. -/
def opensBlock (s : Scanner) : Bool :=
  2 ≤ s.words && s.parens == 0 && (s.depth != 0 || mayHoldBlock s.head) &&
  match s.previous with
  | .start => false
  | .punct c => c == ')' || c == ';' || c == ':'
  | .quoted => true
  | .word w => w ∉ nameWords

/-- Counts a word, and keeps it if it is one of the first. -/
def noteWord (s : Scanner) (w : String) : Scanner :=
  { s with
    words := s.words + 1
    head := if s.head.length < maxHead then s.head ++ [w] else s.head
    storedUnit := s.storedUnit ||
      (s.rules.slashLines && s.head.length < maxHead && isStoredUnit (s.head ++ [w])) }

/-- Lets a word open or close a block, under the rules that have blocks. -/
def nestWord (s : Scanner) (w : String) : Scanner :=
  { s with
    depth :=
      if !s.rules.slashLines && (w == "CASE" || (w == "BEGIN" && s.opensBlock)) then s.depth + 1
      else s.depth
    pendingEnd := s.pendingEnd || (!s.rules.slashLines && w == "END" && s.depth != 0) }

def countWord (s : Scanner) (w : String) : Scanner := (s.noteWord w).nestWord w

/-- Behind `END` these words say that no block was closed. -/
def endSuffixes : List String := ["IF", "LOOP", "WHILE", "REPEAT"]

def onWord (s : Scanner) (w : String) : Scanner :=
  if s.pendingEnd then
    let s := { s with pendingEnd := false }
    if w ∈ endSuffixes then s
    else if w = "CASE" then s.closeBlock
    else s.closeBlock.countWord w
  else s.countWord w

/-- The word in progress; empty when it is too long for a keyword. -/
def wordText (s : Scanner) : String :=
  if maxWord < s.word.length then "" else String.ofList s.word.reverse

def endWord (s : Scanner) : Scanner :=
  if s.word.isEmpty then s
  else { ({ s with word := [] }.onWord s.wordText) with previous := .word s.wordText }

/-- A word moves nothing but the counts. -/
theorem onWord_eq (s : Scanner) (w : String) : ∃ head words depth pendingEnd storedUnit,
    s.onWord w = { s with head, words, depth, pendingEnd, storedUnit } := by
  unfold onWord
  split
  · split
    · exact ⟨_, _, _, _, _, rfl⟩
    · split <;> exact ⟨_, _, _, _, _, rfl⟩
  · exact ⟨_, _, _, _, _, rfl⟩

theorem endWord_eq (s : Scanner) : ∃ head words previous depth pendingEnd storedUnit,
    s.endWord = { s with word := [], head, words, previous, depth, pendingEnd, storedUnit } := by
  unfold endWord
  split
  case isTrue h =>
    have hword : s.word = [] := List.isEmpty_iff.1 h
    exact ⟨s.head, s.words, s.previous, s.depth, s.pendingEnd, s.storedUnit, by rw [← hword]⟩
  case isFalse =>
    obtain ⟨_, _, _, _, _, h⟩ := onWord_eq { s with word := [] } s.wordText
    exact ⟨_, _, _, _, _, _, by rw [h]⟩

@[simp] theorem rules_endWord (s : Scanner) : s.endWord.rules = s.rules := by
  obtain ⟨_, _, _, _, _, _, h⟩ := s.endWord_eq
  rw [h]

@[simp] theorem region_endWord (s : Scanner) : s.endWord.region = s.region := by
  obtain ⟨_, _, _, _, _, _, h⟩ := s.endWord_eq
  rw [h]

@[simp] theorem word_endWord (s : Scanner) : s.endWord.word = [] := by
  obtain ⟨_, _, _, _, _, _, h⟩ := s.endWord_eq
  rw [h]

@[simp] theorem parens_endWord (s : Scanner) : s.endWord.parens = s.parens := by
  obtain ⟨_, _, _, _, _, _, h⟩ := s.endWord_eq
  rw [h]

@[simp] theorem content_endWord (s : Scanner) : s.endWord.content = s.content := by
  obtain ⟨_, _, _, _, _, _, h⟩ := s.endWord_eq
  rw [h]

@[simp] theorem lastContent_endWord (s : Scanner) : s.endWord.lastContent = s.lastContent := by
  obtain ⟨_, _, _, _, _, _, h⟩ := s.endWord_eq
  rw [h]

@[simp] theorem line_endWord (s : Scanner) : s.endWord.line = s.line := by
  obtain ⟨_, _, _, _, _, _, h⟩ := s.endWord_eq
  rw [h]

@[simp] theorem lineQuoted_endWord (s : Scanner) : s.endWord.lineQuoted = s.lineQuoted := by
  obtain ⟨_, _, _, _, _, _, h⟩ := s.endWord_eq
  rw [h]

def pushLine (s : Scanner) (c : Char) : Scanner := { s with line := c :: s.line }

def popLine (s : Scanner) : Scanner := { s with line := s.line.tail }

def resetLine (s : Scanner) (quoted : Bool) : Scanner := { s with line := [], lineQuoted := quoted }

def resetStatement (s : Scanner) : Scanner :=
  { s with
    depth := 0, pendingEnd := false, words := 0, previous := .start, parens := 0, head := [],
    storedUnit := false, lastContent := s.content, content := false }

/-- Closes the block that an undecided `END` closes where no word follows it. -/
def settleEnd (s : Scanner) : Scanner :=
  { s with depth := if s.pendingEnd then s.depth - 1 else s.depth, pendingEnd := false }

/-- At a `;`. -/
def terminator (s : Scanner) : Scanner × Bool :=
  if s.storedUnit ∨ s.settleEnd.depth ≠ 0 then (s.settleEnd, false)
  else (s.settleEnd.resetStatement, true)

/-- Whether the current line ends a statement by itself. -/
def isTerminatorLine (s : Scanner) : Bool :=
  !s.lineQuoted &&
    ((s.rules.slashLines && s.line == ['/']) ||
     (s.rules.goLines && Text.upper s.line.reverse == ['G', 'O']))

def endLine (s : Scanner) : Scanner × Bool :=
  if s.isTerminatorLine then ((s.resetLine false).resetStatement, true)
  else (s.resetLine false, false)

def enterQuote (s : Scanner) (closing : Char) : Scanner :=
  { s with content := true, previous := .quoted, lineQuoted := true, region := .quote closing }

/-- A character that means nothing but itself. -/
def takePunct (s : Scanner) (c : Char) : Scanner :=
  { s with content := true, previous := .punct c }.pushLine c

def isWordByte (s : Scanner) (c : Char) : Bool :=
  c.isAlphanum || c == '_' || 128 ≤ c.toNat || (!s.word.isEmpty && (c == '$' || c == '#'))

/-- A byte that is no part of a word, outside every other region. -/
def stepSymbol (s : Scanner) (c : Char) : Scanner × Bool :=
  match c with
  | '\n' => s.endLine
  | ' ' | '\t' | '\r' | '\x0c' => (s, false)
  | ';' => (s.takePunct ';').terminator
  | '-' => ({ s.pushLine '-' with region := .dash }, false)
  | '/' => ({ s.pushLine '/' with region := .slash }, false)
  | '\x27' => (s.enterQuote '\x27', false)
  | '\x22' => (s.enterQuote '\x22', false)
  | '\x60' => (if s.rules.backtickQuotes then s.enterQuote '\x60' else s.takePunct '\x60', false)
  | '[' => (if s.rules.bracketQuotes then s.enterQuote ']' else s.takePunct '[', false)
  | '#' =>
    (if s.rules.hashComments then { s with region := .lineComment } else s.takePunct '#', false)
  | '$' =>
    if s.rules.dollarQuotes then
      ({ s.pushLine '$' with content := true, previous := .quoted, region := .dollarTag [] }, false)
    else (s.takePunct '$', false)
  | '(' => ({ s.takePunct '(' with parens := s.parens + 1 }, false)
  | ')' => ({ s.takePunct ')' with parens := s.parens - 1 }, false)
  | c => (s.takePunct c, false)

def stepNormal (s : Scanner) (c : Char) : Scanner × Bool :=
  if s.isWordByte c then ({ s with word := c.toUpper :: s.word, content := true }.pushLine c, false)
  else s.endWord.stepSymbol c

/-- The tag characters met behind the last `$` of a dollar-quoted literal, after `c`. -/
def dollarFound (tag : List Char) (found : Option Nat) (c : Char) : Option Nat :=
  match found.bind (tag[·]?) with
  | some t => if c = t then found.map (· + 1) else if c = '$' then some 0 else none
  | none => if found.isNone ∧ c = '$' then some 0 else none

def stepDollar (s : Scanner) (tag : List Char) (found : Option Nat) (c : Char) : Scanner :=
  if found = some tag.length ∧ c = '$' then { s with region := .normal }
  else
    let s := { s with region := .dollar tag (dollarFound tag found c) }
    if c = '\n' then s.resetLine true else s

def step (s : Scanner) (c : Char) : Scanner × Bool :=
  match s.region with
  | .normal => s.stepNormal c
  | .dash =>
    if c = '-' then ({ s.popLine with region := .lineComment }, false)
    else { s with content := true, previous := .punct '-', region := .normal }.stepNormal c
  | .slash =>
    if c = '*' then ({ s.popLine with region := .blockComment }, false)
    else { s with content := true, previous := .punct '/', region := .normal }.stepNormal c
  | .lineComment => if c = '\n' then { s with region := .normal }.endLine else (s, false)
  | .blockComment =>
    if c = '*' then ({ s with region := .blockCommentStar }, false)
    else if c = '\n' then (s.resetLine false, false)
    else (s, false)
  | .blockCommentStar =>
    if c = '/' then ({ s with region := .normal }, false)
    else if c = '*' then (s, false)
    else if c = '\n' then ({ s.resetLine false with region := .blockComment }, false)
    else ({ s with region := .blockComment }, false)
  | .quote closing =>
    if c = closing then ({ s with region := .quoteEnd closing }, false)
    else if c = '\\' ∧ s.rules.backslashEscapes ∧ (closing = '\x27' ∨ closing = '\x22') then
      ({ s with region := .escape closing }, false)
    else if c = '\n' then (s.resetLine true, false)
    else (s, false)
  | .quoteEnd closing =>
    if c = closing then ({ s with region := .quote closing }, false)
    else { s with region := .normal }.stepNormal c
  | .escape closing => ({ s with region := .quote closing }, false)
  | .dollarTag tag =>
    if c = '$' then ({ s with region := .dollar tag none, lineQuoted := true }, false)
    else if c.isAlpha ∨ c = '_' ∨ (c.isDigit ∧ tag ≠ []) then
      ({ s with region := .dollarTag (tag ++ [c]) }.pushLine c, false)
    else { s with region := .normal }.stepNormal c
  | .dollar tag found => (s.stepDollar tag found c, false)

/-- Reads one byte; the flag says whether a statement ends behind it. -/
def feed (s : Scanner) (b : UInt8) : Scanner × Bool := s.step (Char.ofNat b.toNat)

/-- Why the text may not end here. -/
def unfinished? (s : Scanner) : Option Error :=
  match s.region with
  | .quote _ | .escape _ =>
    some (.invalidInput "unterminated quoted literal or identifier at end of input")
  | .blockComment | .blockCommentStar =>
    some (.invalidInput "unterminated block comment at end of input")
  | .dollar _ _ => some (.invalidInput "unterminated dollar-quoted string at end of input")
  | _ => none

/-- Ends the text. -/
def finish (s : Scanner) : Except Error Scanner :=
  match s.unfinished? with
  | some e => .error e
  | none => .ok s.endWord

/-- A statement end met by a scan. -/
structure Boundary where
  /-- The index of the byte it lies behind. -/
  index : Nat
  /-- Whether the statement had content. -/
  content : Bool
  deriving DecidableEq, Repr

/-- A text read so far. -/
structure Scan where
  scanner : Scanner
  /-- Bytes read. -/
  index : Nat := 0
  /-- The statement ends met, last first. -/
  boundaries : List Boundary := []

def Scan.step (r : Scan) (b : UInt8) : Scan :=
  let (scanner, cut) := r.scanner.feed b
  let boundary? := if cut then some ⟨r.index, scanner.lastContent⟩ else none
  { scanner, index := r.index + 1, boundaries := boundary?.toList ++ r.boundaries }

def scan (rules : LexicalRules) (bytes : List UInt8) : Scan :=
  bytes.foldl Scan.step { scanner := { rules } }

end Scanner

end DdlBridge
