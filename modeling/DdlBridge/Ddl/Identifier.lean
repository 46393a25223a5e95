import DdlBridge.Dialect
import DdlBridge.Text.Numeral

/-!
# Identifiers in DDL

A name is quoted only where it has to be: if it is a reserved word, is empty, starts with a numeral,
or holds a character that a bare word cannot.
-/

namespace DdlBridge.Ddl

/-- Whose DDL is written: a dialect's, or that of the SQL standard. -/
inductive Style where
  | standard
  | of (dialect : Dialect)
  deriving DecidableEq, Repr

def reservedWords : List String :=
  ["add", "all", "alter", "and", "as", "asc", "between", "by", "case", "check", "column",
   "constraint", "create", "default", "delete", "desc", "distinct", "drop", "else", "end",
   "exists", "false", "for", "foreign", "from", "grant", "group", "having", "in", "index",
   "inner", "insert", "is", "join", "key", "left", "level", "like", "limit", "not", "null",
   "number", "offset", "on", "or", "order", "outer", "primary", "references", "right", "select",
   "session", "size", "table", "then", "to", "trigger", "true", "union", "unique", "update",
   "user", "values", "view", "when", "where"]

/-- Lower case as far as ASCII letters come out of it: the Kelvin sign is the one character beyond
ASCII whose lower case is an ASCII letter. -/
def lowerChar (c : Char) : Char := if c = '\u212a' then 'k' else c.toLower

def isReserved (name : List Char) : Bool := String.ofList (name.map lowerChar) ∈ reservedWords

def isBareChar (c : Char) : Bool := Text.isLetterOrNumeral c || c == '_' || c == '$'

def needsQuoting (name : String) : Bool :=
  let cs := name.toList
  isReserved cs || cs.isEmpty || !cs.all isBareChar || cs.head?.any Text.isNumeral

namespace Style

/-- The opening and the closing quote of an identifier. -/
def quotes : Style → Char × Char
  | .of .mysql => ('\x60', '\x60')
  | .of .sqlServer => ('[', ']')
  | _ => ('\x22', '\x22')

def quoteIdent (style : Style) (name : String) : String :=
  let (opening, closing) := style.quotes
  String.ofList (opening :: (Text.double closing name.toList ++ [closing]))

/-- The name, quoted if it needs it. -/
def quote (style : Style) (name : String) : String :=
  if needsQuoting name then style.quoteIdent name else name

def nameList (style : Style) (names : List String) : String :=
  Text.joinWith ", " (names.map style.quote)

end Style

end DdlBridge.Ddl
