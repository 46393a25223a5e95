import DdlBridge.Ddl.Table
import DdlBridge.Ddl.Trigger

/-!
# Schemas in DDL

A schema is written as its sequences, tables, views and triggers, a blank line between any two.
-/

namespace DdlBridge

namespace Ddl.Style

/-- A dialect without sequences gets a comment line. -/
def sequenceNote (s : Sequence) (product advice : String) : String :=
  "-- Sequence " ++ s.name ++
    s!" (START WITH {s.startValue} INCREMENT BY {s.incrementBy}) has no " ++ product ++
    " equivalent; use " ++ advice ++ "."

def sequenceStatement (style : Style) (s : Sequence) : String :=
  "CREATE SEQUENCE " ++ style.quote s.name ++
    s!" START WITH {s.startValue} INCREMENT BY {s.incrementBy}" ++
    ((s.minValue.map fun v => s!" MINVALUE {v}").getD "") ++
    ((s.maxValue.map fun v => s!" MAXVALUE {v}").getD "") ++
    ((s.cache.map fun v => s!" CACHE {v}").getD "") ++
    (if s.cycle then " CYCLE" else "") ++ ";"

def createSequence (style : Style) (s : Sequence) : String :=
  match style with
  | .of .mysql => sequenceNote s "MySQL" "AUTO_INCREMENT"
  | .of .sqlite => sequenceNote s "SQLite" "INTEGER PRIMARY KEY AUTOINCREMENT"
  | _ => style.sequenceStatement s

def createView (style : Style) (v : View) : String :=
  let body := style.quote v.name ++ " AS\n" ++ v.definition ++ ";"
  match style with
  | .of .sqlServer =>
    "GO\nCREATE " ++ (if v.orReplace then "OR ALTER " else "") ++ "VIEW " ++ body ++ "\nGO"
  | .of .sqlite => "CREATE VIEW IF NOT EXISTS " ++ body
  | _ => "CREATE " ++ (if v.orReplace then "OR REPLACE " else "") ++ "VIEW " ++ body

def writeSchema (style : Style) (s : Schema) : Except Error String := do
  if s.isEmpty then throw (.generate "schema has no definitions")
  let tables ← s.tables.mapM style.createTable
  return Text.joinWith "\n\n"
    (s.sequences.map style.createSequence ++ tables ++ s.views.map style.createView ++
      s.triggers.map style.createTrigger) ++ "\n"

end Ddl.Style

/-- The schema as DDL of a dialect. -/
def generate (dialect : Dialect) (s : Schema) : Except Error String :=
  (Ddl.Style.of dialect).writeSchema s

end DdlBridge
