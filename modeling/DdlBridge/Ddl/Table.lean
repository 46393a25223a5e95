import DdlBridge.Ddl.Identifier
import DdlBridge.Error
import DdlBridge.Schema.Basic

/-!
# Tables in DDL
-/

namespace DdlBridge.Ddl.Style

/-- The clause that makes a column count by itself. SQLite has none: there only an integer primary
key counts. -/
def identityClause : Style → Option String
  | .of .mysql => some "AUTO_INCREMENT"
  | .of .sqlServer => some "IDENTITY(1,1)"
  | .of .sqlite => none
  | _ => some "GENERATED BY DEFAULT AS IDENTITY"

/-- Whether a foreign key may say what happens on an update. -/
def supportsOnUpdate : Style → Bool
  | .of .oracle => false
  | _ => true

/-- The clauses that follow the type and its default: null rule and keys. -/
def columnFlags (c : Column) (inlineKey : Bool) : List String :=
  (if !c.nullable && !inlineKey then ["NOT NULL"] else []) ++
  (if inlineKey then ["PRIMARY KEY"] else if c.unique then ["UNIQUE"] else [])

def defaultClause (c : Column) : List String :=
  (c.defaultValue.map ("DEFAULT " ++ ·)).toList

/-- A column; with `inlineKey` it carries the primary key of its table. -/
def columnDef (style : Style) (c : Column) (inlineKey : Bool) : String :=
  if style = .of .sqlite ∧ c.autoIncrement ∧ inlineKey then
    style.quote c.name ++ " INTEGER PRIMARY KEY AUTOINCREMENT"
  else
    let value :=
      if c.autoIncrement ∧ style ≠ .of .sqlite then style.identityClause.toList else defaultClause c
    Text.joinWith " " ([style.quote c.name, c.fullType] ++ value ++ columnFlags c inlineKey)

def constraintBody (style : Style) (c : Constraint) : String :=
  match c.kind with
  | .primaryKey | .unique => c.kind.text ++ " (" ++ style.nameList c.columns ++ ")"
  | .check => "CHECK (" ++ c.expression.getD "" ++ ")"
  | .foreignKey =>
    "FOREIGN KEY (" ++ style.nameList c.columns ++ ") REFERENCES " ++
      style.quote (c.refTable.getD "") ++
      (if c.refColumns.isEmpty then "" else " (" ++ style.nameList c.refColumns ++ ")") ++
      ((c.onDelete.map (" ON DELETE " ++ ·)).getD "") ++
      (if style.supportsOnUpdate then (c.onUpdate.map (" ON UPDATE " ++ ·)).getD "" else "")

def constraintDef (style : Style) (c : Constraint) : String :=
  ((c.name.map fun name => "CONSTRAINT " ++ style.quote name ++ " ").getD "") ++
    style.constraintBody c

/-- The lines of a table. A single key column carries the key itself unless a constraint does. -/
def tableLines (style : Style) (t : Table) : List String :=
  let keys := t.columns.filter (·.primaryKey)
  let free := t.primaryKey.isNone
  t.columns.map (fun c => style.columnDef c (keys.length == 1 && free && c.primaryKey)) ++
  (if 1 < keys.length ∧ free then ["PRIMARY KEY (" ++ style.nameList (keys.map (·.name)) ++ ")"]
    else []) ++
  t.constraints.map style.constraintDef

def createTable (style : Style) (t : Table) : Except Error String :=
  if t.columns.isEmpty then .error (.generate ("table '" ++ t.name ++ "' has no columns"))
  else .ok ("CREATE TABLE " ++ style.quote t.name ++ " (\n    " ++
    Text.joinWith ",\n    " (style.tableLines t) ++ "\n);")

end DdlBridge.Ddl.Style
