import DdlBridge.Proofs.Text.LetterCase
import DdlBridge.Schema.Basic

/-!
# Schemas in lower case

The texts of a schema in lower case, with everything else as it is. Schemas that are equal in lower
case differ in the letter case of their texts and in nothing else.
-/

namespace DdlBridge

/-! ### Entities -/

def Column.lowered (c : Column) : Column :=
  { c with
    name := c.name.toLower, dataType := c.dataType.toLower
    defaultValue := c.defaultValue.map String.toLower }

def Constraint.lowered (c : Constraint) : Constraint :=
  { c with
    name := c.name.map String.toLower
    columns := c.columns.map String.toLower
    refTable := c.refTable.map String.toLower
    refColumns := c.refColumns.map String.toLower
    onDelete := c.onDelete.map String.toLower
    onUpdate := c.onUpdate.map String.toLower
    expression := c.expression.map String.toLower }

def Table.lowered (t : Table) : Table where
  name := t.name.toLower
  columns := t.columns.map Column.lowered
  constraints := t.constraints.map Constraint.lowered

def Sequence.lowered (s : Sequence) : Sequence := { s with name := s.name.toLower }

def View.lowered (v : View) : View :=
  { v with name := v.name.toLower, definition := v.definition.toLower }

def Trigger.lowered (t : Trigger) : Trigger :=
  { t with name := t.name.toLower, table := t.table.toLower, body := t.body.toLower }

namespace Schema

/-- The schema with every text in lower case. Numbers, flags, kinds, timings and events, and how many
of each there are, stay as they are. -/
def lowered (s : Schema) : Schema where
  name := s.name.toLower
  tables := s.tables.map Table.lowered
  sequences := s.sequences.map Sequence.lowered
  views := s.views.map View.lowered
  triggers := s.triggers.map Trigger.lowered

theorem lowered_append (s t : Schema) : (s.append t).lowered = s.lowered.append t.lowered := by
  simp [append, lowered]

end Schema

/-- Columns are told apart in lower case. -/
theorem Table.isSome_findColumn_lowered (t : Table) (name : String) :
    (t.lowered.findColumn name.toLower).isSome = (t.findColumn name).isSome := by
  rw [findColumn, findColumn, lowered, List.find?_map, Option.isSome_map]
  congr 2
  funext c
  exact Text.sameName_toLower c.name name

end DdlBridge
