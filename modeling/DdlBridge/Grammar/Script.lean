import DdlBridge.Grammar.Sequence
import DdlBridge.Grammar.Table
import DdlBridge.Grammar.Trigger
import DdlBridge.Grammar.View
import DdlBridge.Statement.Split
import DdlBridge.Token.Lexer

/-!
# Scripts

A script is split into statements, and each `CREATE` of a table, sequence, view or trigger adds an
entity to the schema. Statements that start with another known verb are skipped.
-/

namespace DdlBridge

namespace Grammar

open DdlBridge.Parser

def skippedVerbs : List String :=
  ["ALTER", "ANALYZE", "ATTACH", "AUDIT", "BEGIN", "CALL", "CHECKPOINT", "CLUSTER", "COMMENT",
   "COMMIT", "COPY", "DEALLOCATE", "DECLARE", "DELETE", "DELIMITER", "DETACH", "DISCARD", "DO",
   "DROP", "END", "EXEC", "EXECUTE", "EXIT", "EXPLAIN", "FLUSH", "GRANT", "IF", "INSERT", "LISTEN",
   "LOAD", "LOCK", "MERGE", "NOAUDIT", "NOTIFY", "OPTIMIZE", "PRAGMA", "PREPARE", "PRINT", "PROMPT",
   "PURGE", "QUIT", "REFRESH", "REINDEX", "RELEASE", "RENAME", "REPLACE", "RESET", "REVOKE",
   "ROLLBACK", "SAVEPOINT", "SELECT", "SET", "SHOW", "SPOOL", "START", "TRUNCATE", "UPDATE", "USE",
   "VACUUM", "WHENEVER", "WITH"]

/-- The words allowed between `CREATE` and the object. -/
def createModifiers : List String :=
  ["GLOBAL", "LOCAL", "TEMPORARY", "TEMP", "UNLOGGED", "EDITIONABLE", "NONEDITIONABLE", "FORCE",
   "NOFORCE", "RECURSIVE", "ALGORITHM", "UNDEFINED", "MERGE", "TEMPTABLE", "SQL", "SECURITY",
   "INVOKER", "DEFINER", "OR", "ALTER"]

inductive Object where
  | table
  | sequence
  | view
  | trigger
  deriving DecidableEq, Repr

def Object.ofKeyword? : String → Option Object
  | "TABLE" => some .table
  | "SEQUENCE" => some .sequence
  | "VIEW" => some .view
  | "TRIGGER" => some .trigger
  | _ => none

/-- What stands between `CREATE` and the object. -/
structure CreateHead where
  orReplace : Bool := false
  /-- `DEFINER` was met, and any words may follow. -/
  definer : Bool := false

/-- The head of a `CREATE`, its object if it is one that schemas hold, and the tokens from there on.
`none` stands for a statement that ends before the object. -/
def createHead (h : CreateHead) : List Token → Option (CreateHead × Option Object × List Token)
  | [] => none
  | t :: ts =>
    let keyword := t.keyword
    match Object.ofKeyword? keyword with
    | some object => some (h, some object, t :: ts)
    | none =>
      if keyword = "REPLACE" then createHead { h with orReplace := true } ts
      else if keyword = "DEFINER" then createHead { h with definer := true } ts
      else if keyword ∈ createModifiers ∨ keyword = "" ∨ h.definer then createHead h ts
      else some (h, none, t :: ts)

def objectHead : Parser (CreateHead × Option Object) := fun _ ts =>
  match createHead {} ts with
  | some (h, object, rest) => .ok ((h, object), rest)
  | none => .error ⟨.incompleteCreate, none⟩

/-- The schema that one statement adds. -/
def createStatement : Parser Schema := do
  expectWord "CREATE"
  let (head, object) ← objectHead
  match object with
  | some .table => return { tables := (← tableDefinition).toList }
  | some .sequence => return { sequences := [← sequenceDefinition] }
  | some .view => return { views := [← viewDefinition head.orReplace] }
  | some .trigger => return { triggers := [← triggerDefinition] }
  | none => return {}

def statement : Parser Schema := do
  let some t ← peek | return {}
  if t.keyword = "CREATE" then createStatement
  else if t.keyword ∈ skippedVerbs then return {}
  else fail (.unexpectedStatement (String.ofList t.text))

/-- The schema that one statement of a script adds. -/
def ofStatement (dialect : Dialect) (s : Statement) : Except Error Schema :=
  match readTokens dialect s.text with
  | .error e => .error (e.relocate s.offset)
  | .ok tokens =>
    match statement ⟨s.text, dialect⟩ tokens with
    | .ok (fragment, _) => .ok fragment
    | .error e => .error (e.error s.offset s.text)

theorem ofStatement_eq (dialect : Dialect) (s : Statement) : ofStatement dialect s =
    match statement ⟨s.text, dialect⟩ (tokenize dialect s.text) with
    | .ok (fragment, _) => .ok fragment
    | .error e => .error (e.error s.offset s.text) := by
  rw [ofStatement, readTokens_eq]

end Grammar

/-- The schema that a script defines. -/
def parseScript (dialect : Dialect) (script : List Char) : Except Error Schema := do
  if (Text.trim script).isEmpty then throw (.invalidInput "empty DDL text")
  let statements ← Statement.split dialect.rules script
  statements.foldlM (fun schema s => schema.append <$> Grammar.ofStatement dialect s) {}

def parse (dialect : Dialect) (sql : String) : Except Error Schema := parseScript dialect sql.toList

end DdlBridge
