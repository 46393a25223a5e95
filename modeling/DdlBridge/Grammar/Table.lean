import DdlBridge.Grammar.Column

/-!
# Tables

`CREATE TABLE` with its columns, constraints and options. The options are checked against a list of
known words, so that a missing `;` before the next statement does not pass as one of them.
-/

namespace DdlBridge.Grammar

open DdlBridge.Parser

/-- The words that start an option behind the column list. -/
def tableOptionWords : List String :=
  ["ENGINE", "TYPE", "DEFAULT", "CHARSET", "CHARACTER", "COLLATE", "AUTO_INCREMENT", "COMMENT",
   "ROW_FORMAT", "KEY_BLOCK_SIZE", "AVG_ROW_LENGTH", "MAX_ROWS", "MIN_ROWS", "PACK_KEYS",
   "CHECKSUM", "DELAY_KEY_WRITE", "STATS_PERSISTENT", "STATS_AUTO_RECALC", "STATS_SAMPLE_PAGES",
   "INSERT_METHOD", "UNION", "DATA", "INDEX", "ENCRYPTION", "COMPRESSION", "PARTITION",
   "PARTITIONS", "SUBPARTITION",
   "TABLESPACE", "STORAGE", "PCTFREE", "PCTUSED", "INITRANS", "MAXTRANS", "LOGGING", "NOLOGGING",
   "COMPRESS", "NOCOMPRESS", "CACHE", "NOCACHE", "PARALLEL", "NOPARALLEL", "MONITORING",
   "NOMONITORING", "ORGANIZATION", "LOB", "SEGMENT", "ENABLE", "DISABLE", "ROWDEPENDENCIES",
   "NOROWDEPENDENCIES", "RESULT_CACHE", "INMEMORY", "NO", "OVERFLOW", "PCTTHRESHOLD", "CLUSTER",
   "INHERITS", "WITH", "WITHOUT", "USING", "ON",
   "TEXTIMAGE_ON", "FILESTREAM_ON",
   "STRICT"]

/-- An argument of an option, which the next option or a comma ends. -/
def optionArgument (table : String) (_ : Unit) : Parser (Option Unit) := do
  let some t ← peek | return none
  if t.isWord "CREATE" then fail (.missingSemicolon table)
  else if t.isPunct '(' then discard parenthesized; return some ()
  else if t.isPunct ',' ∨ t.keyword ∈ tableOptionWords then return none
  else advance; return some ()

def tableOption (table : String) (_ : Unit) : Parser (Option Unit) := do
  let some t ← peek | return none
  if t.isPunct ',' ∨ t.isPunct '=' then advance; return some ()
  else if t.keyword ∈ tableOptionWords then
    advance
    some <$> many (optionArgument table) ()
  else fail (.textAfterTable table)

/-- Whether the next table element is a constraint rather than a column. -/
def atConstraint : Parser Bool := do
  let mysql := (← source).dialect == .mysql
  match ← peekKeyword with
  | "CONSTRAINT" | "FOREIGN" | "CHECK" | "UNIQUE" => return true
  | "PRIMARY" => return (← peekAt 1).any (·.isWord "KEY")
  | "FULLTEXT" | "SPATIAL" | "KEY" | "INDEX" => return mysql
  | _ => return false

/-- A name that may stand before a column list. -/
def skipIndexName : Parser Unit := do
  unless ← peekIsPunct '(' do discard ident

/-- A table constraint behind its name; none for an inline index. -/
def constraintBody (name : Option String) : Parser (Option Constraint) := do
  match ← peekKeyword with
  | "PRIMARY" =>
    expectWords ["PRIMARY", "KEY"]
    discard (eatAny ["CLUSTERED", "NONCLUSTERED"])
    let columns ← columnList
    skipElement
    return some { name, kind := .primaryKey, columns }
  | "FOREIGN" =>
    expectWords ["FOREIGN", "KEY"]
    skipIndexName
    let columns ← columnList
    expectWord "REFERENCES"
    let fk ← references { name, kind := .foreignKey, columns }
    skipElement
    return some fk
  | "UNIQUE" =>
    advance
    discard (eatAny ["KEY", "INDEX"])
    discard (eatAny ["CLUSTERED", "NONCLUSTERED"])
    skipIndexName
    let columns ← columnList
    skipElement
    return some { name, kind := .unique, columns }
  | "CHECK" =>
    advance
    let text ← parenthesized
    skipElement
    return some { name, kind := .check, expression := some (String.ofList text) }
  | "KEY" | "INDEX" | "FULLTEXT" | "SPATIAL" =>
    skipElement
    return none
  | _ => fail .expectedConstraint

def tableConstraint : Parser (Option Constraint) := do
  let name ← if ← eatWord "CONSTRAINT" then some <$> ident else pure none
  constraintBody name

/-- A column or a constraint, added to the table. -/
def tableElement (table : Table) : Parser Table := do
  if ← atConstraint then
    let constraint? ← tableConstraint
    return { table with constraints := table.constraints ++ constraint?.toList }
  else
    let start ← tokens
    let (column, lifted) ← columnDefinition
    if (table.findColumn column.name).isSome then
      fun _ _ => .error ⟨.duplicateColumn column.name table.name, start.head?⟩
    else
      return { table with
        columns := table.columns ++ [column], constraints := table.constraints ++ lifted }

/-- `TABLE` and what follows; none if there is no column list. -/
def tableDefinition : Parser (Option Table) := do
  expectWord "TABLE"
  discard (eatWords ["IF", "NOT", "EXISTS"])
  let name ← objectName
  if ← eatPunct '(' then
    let table ← tableElement { name }
    let table ← many (fun table => do
      if ← eatPunct ',' then some <$> tableElement table else return none) table
    expectPunct ')'
    if table.columns.isEmpty then fail (.noColumns name)
    discard (many (tableOption name) ())
    return some table
  else return none

end DdlBridge.Grammar
