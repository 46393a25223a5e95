/-!
# JSON values

Objects keep their members in order, and a name may occur twice. A number is an integer only if it
is written as one.
-/

namespace DdlBridge

inductive Json where
  | null
  | bool (b : Bool)
  | int (n : Int)
  /-- A number written with a fraction or an exponent, or as `-0`. -/
  | real (text : String)
  | str (s : String)
  /-- A string with an escape that stands for no character, or an object with such a name. It has a
  place only where values are ignored. -/
  | broken
  | arr (items : List Json)
  | obj (members : List (String × Json))
  deriving Repr

namespace Json

def ofOption {α : Type} (f : α → Json) : Option α → Json
  | some a => f a
  | none => null

def ofList {α : Type} (f : α → Json) (items : List α) : Json := arr (items.map f)

def ofNat (n : Nat) : Json := int n

def hexDigit (n : Nat) : Char := if n < 10 then Char.ofNat (48 + n) else Char.ofNat (87 + n)

def escapeChar (c : Char) : List Char :=
  match c with
  | '\x22' => ['\\', '\x22']
  | '\\' => ['\\', '\\']
  | '\n' => ['\\', 'n']
  | '\r' => ['\\', 'r']
  | '\t' => ['\\', 't']
  | '\x08' => ['\\', 'b']
  | '\x0c' => ['\\', 'f']
  | c =>
    if c.toNat < 32 then ['\\', 'u', '0', '0', hexDigit (c.toNat / 16), hexDigit (c.toNat % 16)]
    else [c]

def quoted (s : String) : List Char := '\x22' :: (s.toList.flatMap escapeChar ++ ['\x22'])

def scalar : Json → List Char
  | null => "null".toList
  | bool b => (if b then "true" else "false").toList
  | int n => (toString n).toList
  | real text => text.toList
  | str s => quoted s
  | _ => []

/-- A line end and the indentation of a nesting depth. -/
def newline (depth : Nat) : List Char := '\n' :: List.replicate (2 * depth) ' '

mutual

/-- Written over several lines, two blanks deeper on every level. -/
def pretty (depth : Nat) : Json → List Char
  | arr [] => ['[', ']']
  | arr (v :: vs) =>
    '[' :: (newline (depth + 1) ++ pretty (depth + 1) v ++ prettyItems (depth + 1) vs ++
      newline depth ++ [']'])
  | obj [] => ['\x7b', '\x7d']
  | obj (m :: ms) =>
    '\x7b' :: (newline (depth + 1) ++ prettyMember (depth + 1) m ++ prettyMembers (depth + 1) ms ++
      newline depth ++ ['\x7d'])
  | v => scalar v

def prettyItems (depth : Nat) : List Json → List Char
  | [] => []
  | v :: vs => ',' :: (newline depth ++ pretty depth v ++ prettyItems depth vs)

def prettyMember (depth : Nat) : String × Json → List Char
  | (name, v) => quoted name ++ [':', ' '] ++ pretty depth v

def prettyMembers (depth : Nat) : List (String × Json) → List Char
  | [] => []
  | m :: ms => ',' :: (newline depth ++ prettyMember depth m ++ prettyMembers depth ms)

end

mutual

/-- Written on one line. -/
def compact : Json → List Char
  | arr [] => ['[', ']']
  | arr (v :: vs) => '[' :: (compact v ++ compactItems vs ++ [']'])
  | obj [] => ['\x7b', '\x7d']
  | obj (m :: ms) => '\x7b' :: (compactMember m ++ compactMembers ms ++ ['\x7d'])
  | v => scalar v

def compactItems : List Json → List Char
  | [] => []
  | v :: vs => ',' :: (compact v ++ compactItems vs)

def compactMember : String × Json → List Char
  | (name, v) => quoted name ++ ':' :: compact v

def compactMembers : List (String × Json) → List Char
  | [] => []
  | m :: ms => ',' :: (compactMember m ++ compactMembers ms)

end

def prettyText (v : Json) : String := String.ofList (pretty 0 v)

def compactText (v : Json) : String := String.ofList (compact v)

end Json

end DdlBridge
