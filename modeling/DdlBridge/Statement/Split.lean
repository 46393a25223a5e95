import DdlBridge.Statement.Scanner
import DdlBridge.Text.Utf8

/-!
# Splitting a script into statements

A script is cut behind every statement end its scanner reports. A piece loses its terminator and
the white space around it, and keeps the byte offset of what is left.
-/

namespace DdlBridge

structure Statement where
  offset : Nat
  text : List Char
  deriving DecidableEq, Repr

namespace Statement

open Text

/-- Splits behind the last line feed; the first part lacks it. -/
def lastLine (cs : List Char) : List Char × List Char :=
  let reversed := cs.reverse
  ((reversed.dropWhile (· != '\n')).tail.reverse, (reversed.takeWhile (· != '\n')).reverse)

/-- Takes off a last line that reads `/` or `GO`, under the rules that know it, and then one `;`. -/
def stripTerminator (rules : LexicalRules) (raw : List Char) : List Char :=
  let body := trimEnd raw
  let (front, last) := lastLine body
  let last := trim last
  let body :=
    if (rules.slashLines ∧ last = ['/']) ∨ (rules.goLines ∧ upper last = ['G', 'O']) then
      trimEnd front
    else body
  if body.getLast? = some ';' then trimEnd body.dropLast else body

/-- The statement in the piece `raw`, which starts at byte `start`. -/
def ofPiece? (rules : LexicalRules) (start : Nat) (raw : List Char) : Option Statement :=
  let body := stripTerminator rules raw
  let text := trimStart body
  if text.isEmpty then none else some ⟨start + (width body - width text), text⟩

/-- A script split as far as it was read. -/
structure Splitter where
  scanner : Scanner
  /-- Where the current piece starts. -/
  start : Nat := 0
  /-- Where the next character starts. -/
  offset : Nat := 0
  /-- The current piece, last character first. -/
  piece : List Char := []
  /-- The statements before it, last first. -/
  found : List Statement := []

/-- Ends the current piece, which counts as a statement only if it has content. -/
def Splitter.cut (p : Splitter) (content : Bool) : Splitter :=
  let statement? := if content then ofPiece? p.scanner.rules p.start p.piece.reverse else none
  { p with start := p.offset, piece := [], found := statement?.toList ++ p.found }

/-- Feeds a byte to a scanner that comes with the flags of the bytes before. -/
def feedByte (r : Scanner × Bool) (b : UInt8) : Scanner × Bool :=
  let (scanner, now) := r.1.feed b
  (scanner, r.2 || now)

/-- Feeds the bytes of one character; the flag says whether a statement ends behind one of them. -/
def feedChar (s : Scanner) (c : Char) : Scanner × Bool :=
  (String.utf8EncodeChar c).foldl feedByte (s, false)

def Splitter.step (p : Splitter) (c : Char) : Splitter :=
  let (scanner, cut) := feedChar p.scanner c
  let p := { p with scanner, offset := p.offset + c.utf8Size, piece := c :: p.piece }
  if cut then p.cut scanner.lastContent else p

/-- The statements of a script in order. -/
def split (rules : LexicalRules) (script : List Char) : Except Error (List Statement) := do
  let p := script.foldl Splitter.step { scanner := { rules } }
  let scanner ← p.scanner.finish
  return ({ p with scanner }.cut scanner.content).found.reverse

end Statement

end DdlBridge
