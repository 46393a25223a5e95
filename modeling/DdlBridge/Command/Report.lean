import DdlBridge.Schema.Basic
import DdlBridge.TypeTable.Basic

/-!
# Reports for people

The summary of a schema and the table of types between two dialects.
-/

namespace DdlBridge.Command

/-- Filled up with blanks to a number of characters. -/
def padTo (n : Nat) (s : String) : String :=
  s ++ String.ofList (List.replicate (n - s.length) ' ')

def lines (ls : List String) : String := String.join (ls.map (· ++ "\n"))

def columnFlags (c : Column) : List String :=
  (if c.primaryKey then ["PK"] else []) ++ (if c.nullable then [] else ["NOT NULL"]) ++
  (if c.unique then ["UNIQUE"] else []) ++ (if c.autoIncrement then ["AUTO"] else [])

def columnLine (c : Column) : String :=
  "    " ++ padTo 24 c.name ++ " " ++ padTo 20 c.fullType ++ " " ++
    Text.joinWith " " (columnFlags c)

def constraintLine (c : Constraint) : String :=
  "    " ++ c.kind.text ++ " " ++ c.name.getD "-" ++ " (" ++ Text.joinWith ", " c.columns ++ ")"

def tableLines (t : Table) : List String :=
  ("  TABLE " ++ t.name) :: (t.columns.map columnLine ++ t.constraints.map constraintLine)

def sequenceLine (s : Sequence) : String :=
  "  SEQUENCE " ++ s.name ++ s!" start={s.startValue} increment={s.incrementBy}"

def triggerLine (t : Trigger) : String :=
  "  TRIGGER " ++ t.name ++ " " ++ t.timing.text ++ " " ++
    Text.joinWith " OR " (t.events.map (·.text)) ++ " ON " ++ t.table

def countsLine (s : Schema) : String :=
  s!"{s.tables.length} table(s), {s.sequences.length} sequence(s), " ++
    s!"{s.views.length} view(s), {s.triggers.length} trigger(s)"

def summary (dialect : Dialect) (s : Schema) : String :=
  lines (["Parsed " ++ dialect.title, ""] ++ s.tables.flatMap tableLines ++
    s.sequences.map sequenceLine ++ s.views.map ("  VIEW " ++ ·.name) ++
    s.triggers.map triggerLine ++ ["", countsLine s])

def typeReport (source target : Dialect) : String :=
  match TypeTable.between source target with
  | none => "Same dialect: types are kept as written.\n"
  | some table =>
    lines (["Type map " ++ source.title ++ " → " ++ target.title, "",
      padTo 24 source.title ++ " " ++ target.title, String.ofList (List.replicate 48 '─')] ++
      table.entries.map fun e => padTo 24 e.1 ++ " " ++ e.2)

end DdlBridge.Command
