import DdlBridge.Decimal.Reading
import DdlBridge.Json.Reader
import DdlBridge.Toml.Basic

/-!
# Reading TOML

A document is a sequence of lines: headers and pairs of a key and a value. A key may be defined only
once.
-/

namespace DdlBridge.Toml

open Json (hexValue? hexNumber?)

def isBlank (c : Char) : Bool := c == ' ' || c == '\t'

def skipBlank (cs : List Char) : List Char := cs.dropWhile isBlank

/-- Characters that may stand in comments and literal strings. -/
def isPlain (c : Char) : Bool := c == '\t' || (32 ≤ c.toNat && c.toNat != 127)

/-- A comment, if there is one; what is left starts at the line end. -/
def skipComment? : List Char → Option (List Char)
  | '#' :: cs =>
    let rest := cs.dropWhile isPlain
    match rest with
    | [] | '\n' :: _ | '\r' :: '\n' :: _ => some rest
    | _ => none
  | cs => some cs

/-- A line end or the end of the document, behind blanks and a comment. -/
def lineEnd? (cs : List Char) : Option (List Char) := do
  match ← skipComment? (skipBlank cs) with
  | [] => some []
  | '\n' :: rest => some rest
  | '\r' :: '\n' :: rest => some rest
  | _ => none

/-- White space, line ends and comments; every line costs one unit of `fuel`. -/
def skipLines? : Nat → List Char → Option (List Char)
  | 0, cs => some cs
  | fuel + 1, cs => do
    match ← skipComment? (skipBlank cs) with
    | '\n' :: rest => skipLines? fuel rest
    | '\r' :: '\n' :: rest => skipLines? fuel rest
    | rest => some rest

def escape? : Char → Option Char
  | 'b' => some '\x08'
  | 't' => some '\t'
  | 'n' => some '\n'
  | 'f' => some '\x0c'
  | 'r' => some '\r'
  | '\x22' => some '\x22'
  | '\\' => some '\\'
  | _ => none

/-- The character with a code point of `n` hexadecimal digits. -/
def codePoint? (n : Nat) (cs : List Char) : Option (Char × List Char) := do
  guard (n ≤ cs.length)
  let v ← hexNumber? (cs.take n)
  guard (v < 0xD800 || (0xDFFF < v && v < 0x110000))
  return (Char.ofNat v, cs.drop n)

/-- An escape behind its backslash. -/
def escaped? : List Char → Option (Char × List Char)
  | 'u' :: cs => codePoint? 4 cs
  | 'U' :: cs => codePoint? 8 cs
  | c :: cs => (escape? c).map (·, cs)
  | [] => none

/-- A basic string behind its opening quote. -/
def basic? : Nat → List Char → List Char → Option (String × List Char)
  | 0, _, _ => none
  | fuel + 1, done, cs =>
    match cs with
    | '\x22' :: rest => some (String.ofList done.reverse, rest)
    | '\\' :: rest =>
      match escaped? rest with
      | some (c, rest) => basic? fuel (c :: done) rest
      | none => none
    | c :: rest => if isPlain c then basic? fuel (c :: done) rest else none
    | [] => none

/-- A literal string behind its opening quote. -/
def literal? (cs : List Char) : Option (String × List Char) :=
  let body := cs.takeWhile fun c => isPlain c && c != '\x27'
  match cs.drop body.length with
  | '\x27' :: rest => some (String.ofList body, rest)
  | _ => none

/-- Up to five closing quotes end a multi-line string; all but three of them belong to it. -/
def closing? (quote : Char) (cs : List Char) : Option (List Char × List Char) :=
  let run := ((cs.takeWhile (· == quote)).take 5).length
  if run < 3 then none else some (List.replicate (run - 3) quote, cs.drop run)

/-- Drops blanks and line ends. -/
def skipLayout : List Char → List Char
  | '\r' :: '\n' :: cs => skipLayout cs
  | c :: cs => if isBlank c || c == '\n' then skipLayout cs else c :: cs
  | [] => []

/-- What a backslash at a line end skips: all white space up to the next character. -/
def continued? (cs : List Char) : Option (List Char) :=
  match skipBlank cs with
  | '\n' :: rest => some (skipLayout rest)
  | '\r' :: '\n' :: rest => some (skipLayout rest)
  | _ => none

/-- A multi-line string behind its opening quotes; with `escapes` a basic one. -/
def multiLine? (quote : Char) (escapes : Bool) :
    Nat → List Char → List Char → Option (String × List Char)
  | 0, _, _ => none
  | fuel + 1, done, cs =>
    match closing? quote cs with
    | some (inner, rest) => some (String.ofList (done.reverse ++ inner), rest)
    | none =>
      match cs with
      | '\r' :: '\n' :: rest => multiLine? quote escapes fuel ('\n' :: done) rest
      | '\n' :: rest => multiLine? quote escapes fuel ('\n' :: done) rest
      | c :: rest =>
        if escapes ∧ c = '\\' then
          match continued? rest with
          | some rest => multiLine? quote escapes fuel done rest
          | none =>
            match escaped? rest with
            | some (c, rest) => multiLine? quote escapes fuel (c :: done) rest
            | none => none
        else if isPlain c then multiLine? quote escapes fuel (c :: done) rest
        else none
      | [] => none

/-- A line end right behind the opening quotes of a multi-line string does not count. -/
def dropFirstLineEnd : List Char → List Char
  | '\n' :: cs => cs
  | '\r' :: '\n' :: cs => cs
  | cs => cs

def string? : List Char → Option (String × List Char)
  | '\x22' :: '\x22' :: '\x22' :: cs =>
    multiLine? '\x22' true (cs.length + 1) [] (dropFirstLineEnd cs)
  | '\x27' :: '\x27' :: '\x27' :: cs =>
    multiLine? '\x27' false (cs.length + 1) [] (dropFirstLineEnd cs)
  | '\x22' :: cs => basic? (cs.length + 1) [] cs
  | '\x27' :: cs => literal? cs
  | _ => none

def isBareKey (c : Char) : Bool := c.isAlphanum || c == '_' || c == '-'

def simpleKey? : List Char → Option (String × List Char)
  | '\x22' :: cs => basic? (cs.length + 1) [] cs
  | '\x27' :: cs => literal? cs
  | cs =>
    let key := cs.takeWhile isBareKey
    if key.isEmpty then none else some (String.ofList key, cs.dropWhile isBareKey)

/-- How deep arrays and inline tables may be nested, and how many keys points may join. -/
def maxNesting : Nat := 79

/-- Keys with points between them, at most as many as given; blanks around each are dropped. -/
def dottedKey? : Nat → List Char → Option (List String × List Char)
  | 0, _ => none
  | n + 1, cs => do
    let (key, rest) ← simpleKey? (skipBlank cs)
    match skipBlank rest with
    | '.' :: rest =>
      let (keys, rest) ← dottedKey? n rest
      return (key :: keys, rest)
    | rest => return ([key], rest)

/-- Digits with single underscores between them. -/
def plainDigits? (isDigit : Char → Bool) : List Char → Option (List Char)
  | [] => none
  | [c] => if isDigit c then some [c] else none
  | c :: '_' :: cs => if isDigit c then (plainDigits? isDigit cs).map (c :: ·) else none
  | c :: cs => if isDigit c then (plainDigits? isDigit cs).map (c :: ·) else none

def inRange? (n : Int) : Option Toml :=
  if Int64.minValue.toInt ≤ n ∧ n ≤ Int64.maxValue.toInt then some (.int n) else none

def digitValue (c : Char) : Nat := (hexValue? c).getD 0

def radix? (base : Nat) (cs : List Char) : Option Toml := do
  let digits ← plainDigits? (fun c => (hexValue? c).any (· < base)) cs
  inRange? (digits.foldl (fun n c => base * n + digitValue c) 0 : Nat)

/-- Splits off a sign. -/
def sign (cs : List Char) : List Char × List Char :=
  if cs.head? = some '-' ∨ cs.head? = some '+' then (cs.take 1, cs.drop 1) else ([], cs)

/-- The whole part of a number: digits without a zero in front. -/
def whole? (cs : List Char) : Option (List Char) := do
  let digits ← plainDigits? Char.isDigit cs
  guard (digits.length == 1 || digits.head? != some '0')
  return digits

def integer? (cs : List Char) : Option Toml := do
  let (s, body) := sign cs
  let n : Int := Decimal.digitsValue (← whole? body)
  inRange? (if s = ['-'] then -n else n)

def isMark (c : Char) : Bool := c == 'e' || c == 'E'

def exponent? (cs : List Char) : Option (List Char) := do
  let (s, body) := sign cs
  return s ++ (← plainDigits? Char.isDigit body)

/-- A floating-point number: `inf`, `nan` or a decimal with a fraction or an exponent. A decimal too
large is refused, while one too small is negative infinity. -/
def float? (cs : List Char) : Option Toml := do
  let (s, body) := sign cs
  if body = ['i', 'n', 'f'] then return .float (if s = ['-'] then -1.0 / 0.0 else 1.0 / 0.0)
  if body = ['n', 'a', 'n'] then return .float (0.0 / 0.0)
  let number := body.takeWhile (! isMark ·)
  let power := body.drop number.length
  let whole ← whole? (number.takeWhile (· != '.'))
  let fraction := number.dropWhile (· != '.')
  guard (!fraction.isEmpty || !power.isEmpty)
  let fraction ←
    if fraction.isEmpty then some [] else ('.' :: ·) <$> plainDigits? Char.isDigit (fraction.drop 1)
  let power ← if power.isEmpty then some [] else ('e' :: ·) <$> exponent? (power.drop 1)
  let x := Decimal.read (s ++ whole ++ fraction ++ power)
  if x == 1.0 / 0.0 then none else return .float x

/-- Two digits at the front, within bounds. -/
def twoDigits? (low high : Nat) : List Char → Option (Nat × List Char)
  | a :: b :: rest =>
    let n := 10 * digitValue a + digitValue b
    if a.isDigit ∧ b.isDigit ∧ low ≤ n ∧ n ≤ high then some (n, rest) else none
  | _ => none

def two? (low high : Nat) (cs : List Char) : Option (List Char) :=
  (twoDigits? low high cs).map (·.2)

def expect? (c : Char) (cs : List Char) : Option (List Char) :=
  if cs.head? = some c then some cs.tail else none

def isLeapYear (year : Nat) : Bool := year % 4 == 0 && (year % 100 != 0 || year % 400 == 0)

def daysInMonth (year month : Nat) : Nat :=
  if month = 2 then if isLeapYear year then 29 else 28
  else if month ∈ [4, 6, 9, 11] then 30
  else 31

/-- A date at the front. -/
def date? (cs : List Char) : Option (List Char) := do
  let (century, rest) ← twoDigits? 0 99 cs
  let (year, rest) ← twoDigits? 0 99 rest
  let (month, rest) ← expect? '-' rest >>= twoDigits? 1 12
  expect? '-' rest >>= two? 1 (daysInMonth (100 * century + year) month)

/-- A time of day at the front. -/
def time? (cs : List Char) : Option (List Char) := do
  let rest ← two? 0 23 cs >>= expect? ':' >>= two? 0 59 >>= expect? ':' >>= two? 0 60
  match rest with
  | '.' :: rest =>
    let digits := rest.takeWhile Char.isDigit
    if digits.isEmpty then none else some (rest.drop digits.length)
  | rest => some rest

def offset? (cs : List Char) : Option (List Char) :=
  match cs with
  | 'Z' :: rest => some rest
  | 'z' :: rest => some rest
  | '+' :: rest => two? 0 23 rest >>= expect? ':' >>= two? 0 59
  | '-' :: rest => two? 0 23 rest >>= expect? ':' >>= two? 0 59
  | rest => some rest

/-- A date, a time, or both with a `T` or a blank between them. -/
def moment? (cs : List Char) : Option (Toml × List Char) := do
  let rest ←
    match date? cs with
    | some (c :: rest) =>
      if c = 'T' ∨ c = 't' then time? rest >>= offset?
      else if c = ' ' ∧ (time? rest).isSome then time? rest >>= offset?
      else some (c :: rest)
    | some [] => some []
    | none => time? cs
  return (.moment (String.ofList (cs.take (cs.length - rest.length))), rest)

def isScalar (c : Char) : Bool :=
  c.isAlphanum || c == '_' || c == '+' || c == '-' || c == '.' || c == ':'

def boolean? : List Char → Option Toml
  | ['t', 'r', 'u', 'e'] => some (.bool true)
  | ['f', 'a', 'l', 's', 'e'] => some (.bool false)
  | _ => none

def number? : List Char → Option Toml
  | '0' :: 'x' :: cs => radix? 16 cs
  | '0' :: 'o' :: cs => radix? 8 cs
  | '0' :: 'b' :: cs => radix? 2 cs
  | cs => (integer? cs).or (float? cs)

/-- A value that is no string, array or inline table. -/
def scalar? (cs : List Char) : Option (Toml × List Char) :=
  match moment? cs with
  | some (v, rest) => if rest.head?.any isScalar then none else some (v, rest)
  | none =>
    let word := cs.takeWhile isScalar
    ((boolean? word).or (number? word)).map (·, cs.dropWhile isScalar)

mutual

/-- One value with at most `room` levels inside; every call costs one unit of `fuel`. -/
def value? : Nat → Nat → List Char → Option (Toml × List Char)
  | 0, _, _ => none
  | fuel + 1, room, cs =>
    match cs, room with
    | '\x22' :: _, _ | '\x27' :: _, _ => (string? cs).map fun (s, rest) => (.str s, rest)
    | '[' :: _, 0 | '\x7b' :: _, 0 => none
    | '[' :: rest, room + 1 => items? fuel room [] rest
    | '\x7b' :: rest, room + 1 =>
      match skipBlank rest with
      | '\x7d' :: rest => some (.table [], rest)
      | rest => pairs? fuel room [] rest
    | cs, _ => scalar? cs

/-- The items of an array from here on; `done` holds those before, last first. -/
def items? : Nat → Nat → List Toml → List Char → Option (Toml × List Char)
  | 0, _, _, _ => none
  | fuel + 1, room, done, cs =>
    match skipLines? cs.length cs with
    | some (']' :: rest) => some (.arr done.reverse, rest)
    | some rest =>
      match value? fuel room rest with
      | none => none
      | some (v, rest) =>
        match skipLines? rest.length rest with
        | some (',' :: rest) => items? fuel room (v :: done) rest
        | some (']' :: rest) => some (.arr (v :: done).reverse, rest)
        | _ => none
    | none => none

/-- The pairs of an inline table from here on. -/
def pairs? : Nat → Nat → List (String × Node) → List Char → Option (Toml × List Char)
  | 0, _, _, _ => none
  | fuel + 1, room, done, cs =>
    match pair? fuel room cs with
    | none => none
    | some (path, key, v, rest) =>
      match Node.insert path key v done with
      | none => none
      | some done =>
        match skipBlank rest with
        | ',' :: rest => pairs? fuel room done rest
        | '\x7d' :: rest => some (.table (Node.values done), rest)
        | _ => none

/-- A key with its path, and its value. -/
def pair? : Nat → Nat → List Char → Option (List String × String × Toml × List Char)
  | 0, _, _ => none
  | fuel + 1, room, cs =>
    match dottedKey? maxNesting cs with
    | some (keys, '=' :: rest) =>
      match value? fuel room (skipBlank rest) with
      | some (v, rest) => some (keys.dropLast, keys.getLast?.getD "", v, rest)
      | none => none
    | _ => none

end

/-- A document read so far: its entries and the path of the open header. -/
structure Draft where
  entries : List (String × Node) := []
  header : List String := []

/-- A header behind its opening bracket or brackets, up to what follows the closing ones. -/
def headerKeys? (closing : List Char) (cs : List Char) : Option (List String × List Char) := do
  let (keys, rest) ← dottedKey? maxNesting cs
  guard (closing.isPrefixOf rest)
  return (keys, rest.drop closing.length)

def Draft.openWith (d : Draft) (f : String → List (String × Node) → Option (List (String × Node)))
    (keys : List String) : Option Draft := do
  let entries ← Node.within (f (keys.getLast?.getD "")) keys.dropLast d.entries
  return { entries, header := keys }

/-- One line that is not empty, up to its end. -/
def Draft.line? (d : Draft) (cs : List Char) : Option (Draft × List Char) := do
  match cs with
  | '[' :: '[' :: rest =>
    let (keys, rest) ← headerKeys? [']', ']'] rest
    return (← d.openWith Node.openElement keys, rest)
  | '[' :: rest =>
    let (keys, rest) ← headerKeys? [']'] rest
    return (← d.openWith Node.openTable keys, rest)
  | cs =>
    let (path, key, v, rest) ← pair? (2 * cs.length + 2) maxNesting cs
    let entries ← Node.within (Node.insert path key v) d.header d.entries
    return ({ d with entries }, rest)

/-- The lines from here on; every line costs one unit of `fuel`. -/
def lines? : Nat → Draft → List Char → Option Draft
  | 0, d, cs => if cs.isEmpty then some d else none
  | fuel + 1, d, cs =>
    match skipBlank cs with
    | [] => some d
    | rest =>
      match lineEnd? rest with
      | some rest => lines? fuel d rest
      | none =>
        match d.line? rest with
        | none => none
        | some (d, rest) =>
          match lineEnd? rest with
          | some rest => lines? fuel d rest
          | none => none

def parse? (text : String) : Option Toml :=
  let cs := text.toList
  let cs := if cs.head? = some '\ufeff' then cs.tail else cs
  (lines? (cs.length + 1) {} cs).map fun d => .table (Node.values d.entries)

end DdlBridge.Toml
