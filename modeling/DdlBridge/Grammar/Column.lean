import DdlBridge.Grammar.ColumnType

/-!
# Column definitions

A column is a name, a type and clauses in any order. Its `CHECK` and `REFERENCES` clauses become
constraints of the table. Clauses that the schema has no place for are read and dropped.
-/

namespace DdlBridge.Grammar

open DdlBridge.Parser

/-- A referential action. -/
def refAction : Parser String := do
  match ← peekKeyword with
  | "CASCADE" => advance; return "CASCADE"
  | "RESTRICT" => advance; return "RESTRICT"
  | "NO" => expectWords ["NO", "ACTION"]; return "NO ACTION"
  | "SET" =>
    advance
    match ← eatAny ["NULL", "DEFAULT"] with
    | some target => return "SET " ++ target
    | none => fail .expectedNullOrDefault
  | _ => fail .expectedAction

def refClause (fk : Constraint) : Parser (Option Constraint) := do
  if ← eatWords ["ON", "DELETE"] then return some { fk with onDelete := some (← refAction) }
  else if ← eatWords ["ON", "UPDATE"] then return some { fk with onUpdate := some (← refAction) }
  else if ← eatWord "MATCH" then advance; return some fk
  else if ← eatWord "DEFERRABLE" then return some fk
  else if ← eatWords ["NOT", "DEFERRABLE"] then return some fk
  else if ← eatWord "INITIALLY" then advance; return some fk
  else return none

/-- What follows `REFERENCES`. -/
def references (fk : Constraint) : Parser Constraint := do
  let fk := { fk with refTable := some (← objectName) }
  let fk ← if ← peekIsPunct '(' then pure { fk with refColumns := ← columnList } else pure fk
  many refClause fk

/-- What follows `GENERATED`: an identity, or a computed column. -/
def generated (column : Column) : Parser Column := do
  unless ← eatWord "ALWAYS" do
    if ← eatWords ["BY", "DEFAULT"] then discard (eatWords ["ON", "NULL"])
  expectWord "AS"
  if ← eatWord "IDENTITY" then
    skipParenthesized
    return { column with autoIncrement := true }
  else
    discard parenthesized
    discard (eatAny ["STORED", "VIRTUAL"])
    return column

/-- A column definition read so far. -/
structure ColumnDraft where
  column : Column
  /-- The constraints lifted out of it. -/
  lifted : List Constraint := []
  /-- The name given to the next of them. -/
  constraintName : Option String := none

/-- Lifts a constraint out of the column and gives it the pending name. -/
def ColumnDraft.lift (d : ColumnDraft) (c : Constraint) : ColumnDraft :=
  { d with lifted := d.lifted ++ [{ c with name := d.constraintName }], constraintName := none }

def columnClause (d : ColumnDraft) : Parser (Option ColumnDraft) := do
  let some t ← peek | return none
  if endsElement t then return none
  let column := d.column
  match t.keyword with
  | "NOT" =>
    expectWords ["NOT", "NULL"]
    return some { d with column := { column with nullable := false } }
  | "NULL" =>
    advance
    return some { d with column := { column with nullable := true } }
  | "PRIMARY" =>
    expectWords ["PRIMARY", "KEY"]
    discard (eatAny ["ASC", "DESC", "CLUSTERED", "NONCLUSTERED"])
    return some { d with column := { column with primaryKey := true, nullable := false } }
  | "UNIQUE" =>
    advance
    discard (eatWord "KEY")
    return some { d with column := { column with unique := true } }
  | "DEFAULT" =>
    advance
    let value ← defaultExpression
    return some { d with column := { column with defaultValue := some (String.ofList value) } }
  | "CHECK" =>
    advance
    let text ← parenthesized
    return some (d.lift
      { kind := .check, columns := [column.name], expression := some (String.ofList text) })
  | "REFERENCES" =>
    advance
    return some (d.lift (← references { kind := .foreignKey, columns := [column.name] }))
  | "CONSTRAINT" =>
    advance
    return some { d with constraintName := some (← ident) }
  | "AUTO_INCREMENT" | "AUTOINCREMENT" =>
    advance
    return some { d with column := { column with autoIncrement := true } }
  | "IDENTITY" =>
    advance
    skipParenthesized
    return some { d with column := { column with autoIncrement := true } }
  | "GENERATED" =>
    advance
    return some { d with column := ← generated column }
  | "ON" =>
    expectWords ["ON", "UPDATE"]
    advance
    skipParenthesized
    return some d
  | "COLLATE" | "COMMENT" | "CHARSET" =>
    advance
    advance
    return some d
  | "CHARACTER" =>
    expectWords ["CHARACTER", "SET"]
    advance
    return some d
  | _ =>
    advance
    skipParenthesized
    return some d

/-- A column and the constraints lifted out of it. -/
def columnDefinition : Parser (Column × List Constraint) := do
  let name ← ident
  let draft ← many columnClause { column := ← columnType name }
  return (draft.column, draft.lifted)

end DdlBridge.Grammar
