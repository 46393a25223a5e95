import DdlBridge.Text.Basic

/-!
# Tokens

A token keeps its text and its byte offset, so that expressions can be cut out of the source as
they were written.
-/

namespace DdlBridge

inductive TokenKind where
  /-- A keyword or a bare identifier. -/
  | word
  | quotedIdent
  | string
  | dollarString
  | number
  /-- Any other single character. -/
  | punct
  deriving DecidableEq, Repr

structure Token where
  kind : TokenKind
  text : List Char
  offset : Nat
  deriving DecidableEq, Repr

/-- Takes the delimiters off a quoted text and undoes the doubling of the closing one. -/
def unquote : List Char → List Char
  | [] => []
  | opening :: rest =>
    let closing := if opening = '[' then ']' else opening
    let inner := if rest.getLast? = some closing then rest.dropLast else rest
    Text.undouble closing inner

namespace Token

/-- The offset behind the token. -/
def stop (t : Token) : Nat := t.offset + Text.width t.text

/-- A bare word in upper case; empty for any other token. -/
def keyword (t : Token) : String :=
  if t.kind = .word then String.ofList (Text.upper t.text) else ""

def isWord (t : Token) (keyword : String) : Bool :=
  t.kind == .word && Text.upper t.text == Text.upper keyword.toList

def isPunct (t : Token) (c : Char) : Bool := t.kind == .punct && t.text.head? == some c

/-- The name a token stands for. -/
def ident? (t : Token) : Option String :=
  match t.kind with
  | .word => some (String.ofList t.text)
  | .quotedIdent => some (String.ofList (unquote t.text))
  | _ => none

end Token

end DdlBridge
