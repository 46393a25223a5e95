import DdlBridge.Json.Basic

/-!
# Reading JSON

A text is one value with nothing but white space around it. A reader returns the value and what
follows it.
-/

namespace DdlBridge.Json

def isSpace (c : Char) : Bool := c == ' ' || c == '\n' || c == '\t' || c == '\r'

def skipSpace (cs : List Char) : List Char := cs.dropWhile isSpace

def hexValue? (c : Char) : Option Nat :=
  if c.isDigit then some (c.toNat - 48)
  else if 'a' ≤ c ∧ c ≤ 'f' then some (c.toNat - 87)
  else if 'A' ≤ c ∧ c ≤ 'F' then some (c.toNat - 55)
  else none

def hexNumber? (cs : List Char) : Option Nat :=
  cs.foldl (fun n c => n.bind fun n => (hexValue? c).map (16 * n + ·)) (some 0)

def simpleEscape? : Char → Option Char
  | '\x22' => some '\x22'
  | '\\' => some '\\'
  | '/' => some '/'
  | 'b' => some '\x08'
  | 'f' => some '\x0c'
  | 'n' => some '\n'
  | 'r' => some '\r'
  | 't' => some '\t'
  | _ => none

def isHighSurrogate (n : Nat) : Bool := 0xD800 ≤ n && n ≤ 0xDBFF

def isLowSurrogate (n : Nat) : Bool := 0xDC00 ≤ n && n ≤ 0xDFFF

/-- The character behind `\u`: four hexadecimal digits, or two such escapes that form a surrogate
pair. -/
def unicodeEscape? (cs : List Char) : Option (Char × List Char) := do
  guard (4 ≤ cs.length)
  let n ← hexNumber? (cs.take 4)
  let rest := cs.drop 4
  if isHighSurrogate n then
    match rest with
    | '\\' :: 'u' :: rest =>
      guard (4 ≤ rest.length)
      let m ← hexNumber? (rest.take 4)
      guard (isLowSurrogate m)
      return (Char.ofNat (0x10000 + (n - 0xD800) * 0x400 + (m - 0xDC00)), rest.drop 4)
    | _ => none
  else if isLowSurrogate n then none
  else return (Char.ofNat n, rest)

/-- The inside of a string up to its closing quote; `done` holds what was read, last first. -/
def stringBody? (done : List Char) (cs : List Char) : Option (String × List Char) :=
  match cs with
  | [] => none
  | '\x22' :: rest => some (String.ofList done.reverse, rest)
  | '\\' :: 'u' :: rest =>
    match unicodeEscape? rest with
    | some (c, after) =>
      if after.length < rest.length then stringBody? (c :: done) after else none
    | none => none
  | '\\' :: e :: rest =>
    match simpleEscape? e with
    | some c => stringBody? (c :: done) rest
    | none => none
  | c :: rest => if c.toNat < 32 then none else stringBody? (c :: done) rest
termination_by cs.length
decreasing_by all_goals simp_all; try omega

/-- What follows a string whose escapes need not stand for characters. -/
def behindString? : List Char → Option (List Char)
  | [] => none
  | '\x22' :: rest => some rest
  | '\\' :: 'u' :: a :: b :: c :: d :: rest =>
    if [a, b, c, d].all fun c => (hexValue? c).isSome then behindString? rest else none
  | '\\' :: e :: rest => if (simpleEscape? e).isSome then behindString? rest else none
  | c :: rest => if c.toNat < 32 then none else behindString? rest

/-- A string behind its opening quote; its text, if it has one, and what follows. -/
def readString? (cs : List Char) : Option (Option String × List Char) :=
  match stringBody? [] cs with
  | some (s, rest) => some (some s, rest)
  | none => (behindString? cs).map fun rest => (none, rest)

/-- An object with these members, if all their names are text. -/
def ofMembers (members : List (Option String × Json)) : Json :=
  match members.mapM fun (name, v) => name.map fun name => (name, v) with
  | some members => obj members
  | none => broken

/-- The digits of a fraction behind its point, point included. -/
def fraction? : List Char → Option (List Char × List Char)
  | '.' :: cs =>
    let digits := cs.takeWhile Char.isDigit
    if digits.isEmpty then none else some ('.' :: digits, cs.dropWhile Char.isDigit)
  | cs => some ([], cs)

def exponent? : List Char → Option (List Char × List Char)
  | [] => some ([], [])
  | e :: cs =>
    if e = 'e' ∨ e = 'E' then
      let sign := if cs.head? = some '+' ∨ cs.head? = some '-' then cs.take 1 else []
      let rest := cs.drop sign.length
      let digits := rest.takeWhile Char.isDigit
      if digits.isEmpty then none else some (e :: (sign ++ digits), rest.dropWhile Char.isDigit)
    else some ([], e :: cs)

def digitsValue (cs : List Char) : Nat := cs.foldl (fun n c => 10 * n + (c.toNat - 48)) 0

def number? (cs : List Char) : Option (Json × List Char) := do
  let negative := cs.head? == some '-'
  let body := if negative then cs.tail else cs
  let digits := body.takeWhile Char.isDigit
  guard (!digits.isEmpty && (digits.length == 1 || digits.head? != some '0'))
  let (fraction, rest) ← fraction? (body.dropWhile Char.isDigit)
  let (exponent, rest) ← exponent? rest
  let sign := if negative then ['-'] else []
  if fraction.isEmpty && exponent.isEmpty && !(negative && digitsValue digits == 0) then
    let n : Int := digitsValue digits
    return (.int (if negative then -n else n), rest)
  else return (.real (String.ofList (sign ++ digits ++ fraction ++ exponent)), rest)

/-- A word such as `null`. -/
def literal? (word : String) (v : Json) (cs : List Char) : Option (Json × List Char) :=
  if word.toList.isPrefixOf cs then some (v, cs.drop word.length) else none

mutual

/-- One value; every call costs one unit of `fuel`. -/
def value? : Nat → List Char → Option (Json × List Char)
  | 0, _ => none
  | fuel + 1, cs =>
    match skipSpace cs with
    | '\x22' :: rest => (readString? rest).map fun (s, rest) => ((s.map str).getD broken, rest)
    | '[' :: rest =>
      match skipSpace rest with
      | ']' :: rest => some (.arr [], rest)
      | rest => items? fuel [] rest
    | '\x7b' :: rest =>
      match skipSpace rest with
      | '\x7d' :: rest => some (.obj [], rest)
      | rest => members? fuel [] rest
    | 'n' :: rest => literal? "null" .null ('n' :: rest)
    | 't' :: rest => literal? "true" (.bool true) ('t' :: rest)
    | 'f' :: rest => literal? "false" (.bool false) ('f' :: rest)
    | rest => number? rest

/-- The items of an array from here on; `done` holds those before, last first. -/
def items? : Nat → List Json → List Char → Option (Json × List Char)
  | 0, _, _ => none
  | fuel + 1, done, cs =>
    match value? fuel cs with
    | none => none
    | some (v, rest) =>
      match skipSpace rest with
      | ',' :: rest => items? fuel (v :: done) rest
      | ']' :: rest => some (.arr (v :: done).reverse, rest)
      | _ => none

/-- The members of an object from here on. -/
def members? : Nat → List (Option String × Json) → List Char → Option (Json × List Char)
  | 0, _, _ => none
  | fuel + 1, done, cs =>
    match skipSpace cs with
    | '\x22' :: rest =>
      match readString? rest with
      | none => none
      | some (name, rest) =>
        match skipSpace rest with
        | ':' :: rest =>
          match value? fuel rest with
          | none => none
          | some (v, rest) =>
            match skipSpace rest with
            | ',' :: rest => members? fuel ((name, v) :: done) rest
            | '\x7d' :: rest => some (ofMembers ((name, v) :: done).reverse, rest)
            | _ => none
        | _ => none
    | _ => none

end

def parse? (cs : List Char) : Option Json :=
  match value? (2 * cs.length + 2) cs with
  | some (v, rest) => if (skipSpace rest).isEmpty then some v else none
  | none => none

end DdlBridge.Json
