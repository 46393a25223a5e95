import DdlBridge.Json.Decode
import DdlBridge.Json.Reader
import DdlBridge.Schema.Basic

/-!
# Schemas as JSON

Writing gives every field; reading lets those with a natural default be missing.
-/

namespace DdlBridge

open Json

def ConstraintKind.ofText? : String → Option ConstraintKind
  | "PRIMARY KEY" => some .primaryKey
  | "FOREIGN KEY" => some .foreignKey
  | "UNIQUE" => some .unique
  | "CHECK" => some .check
  | _ => none

def Timing.ofText? : String → Option Timing
  | "BEFORE" => some .before
  | "AFTER" => some .after
  | "INSTEAD OF" => some .insteadOf
  | _ => none

def Event.ofText? : String → Option Event
  | "INSERT" => some .insert
  | "UPDATE" => some .update
  | "DELETE" => some .delete
  | _ => none

def Json.ofUInt32 (n : UInt32) : Json := .int n.toNat

def Json.ofInt64 (n : Int64) : Json := .int n.toInt

namespace Column

def toJson (c : Column) : Json :=
  .obj
    [("name", .str c.name), ("data_type", .str c.dataType),
     ("length", .ofOption .ofUInt32 c.length), ("precision", .ofOption .ofUInt32 c.precision),
     ("scale", .ofOption .ofUInt32 c.scale), ("nullable", .bool c.nullable),
     ("primary_key", .bool c.primaryKey), ("unique", .bool c.unique),
     ("auto_increment", .bool c.autoIncrement), ("default_value", .ofOption .str c.defaultValue)]

def fieldNames : List String :=
  ["name", "data_type", "length", "precision", "scale", "nullable", "primary_key", "unique",
   "auto_increment", "default_value"]

def ofJson? (v : Json) : Option Column := do
  match ← v.fields? fieldNames with
  | [name, dataType, length, precision, scale, nullable, primaryKey, unique, autoIncrement,
      defaultValue] =>
    return {
      name := ← required? string? name
      dataType := ← required? string? dataType
      length := ← optional? none (option? uint32?) length
      precision := ← optional? none (option? uint32?) precision
      scale := ← optional? none (option? uint32?) scale
      nullable := ← optional? true bool? nullable
      primaryKey := ← optional? false bool? primaryKey
      unique := ← optional? false bool? unique
      autoIncrement := ← optional? false bool? autoIncrement
      defaultValue := ← optional? none (option? string?) defaultValue }
  | _ => none

end Column

namespace Constraint

def toJson (c : Constraint) : Json :=
  .obj
    [("name", .ofOption .str c.name), ("kind", .str c.kind.text),
     ("columns", .ofList .str c.columns), ("ref_table", .ofOption .str c.refTable),
     ("ref_columns", .ofList .str c.refColumns), ("on_delete", .ofOption .str c.onDelete),
     ("on_update", .ofOption .str c.onUpdate), ("expression", .ofOption .str c.expression)]

def fieldNames : List String :=
  ["name", "kind", "columns", "ref_table", "ref_columns", "on_delete", "on_update", "expression"]

def ofJson? (v : Json) : Option Constraint := do
  match ← v.fields? fieldNames with
  | [name, kind, columns, refTable, refColumns, onDelete, onUpdate, expression] =>
    return {
      name := ← optional? none (option? string?) name
      kind := ← required? (choice? ConstraintKind.ofText?) kind
      columns := ← optional? [] (list? string?) columns
      refTable := ← optional? none (option? string?) refTable
      refColumns := ← optional? [] (list? string?) refColumns
      onDelete := ← optional? none (option? string?) onDelete
      onUpdate := ← optional? none (option? string?) onUpdate
      expression := ← optional? none (option? string?) expression }
  | _ => none

end Constraint

namespace Table

def toJson (t : Table) : Json :=
  .obj
    [("name", .str t.name), ("columns", .ofList Column.toJson t.columns),
     ("constraints", .ofList Constraint.toJson t.constraints)]

def fieldNames : List String := ["name", "columns", "constraints"]

def ofJson? (v : Json) : Option Table := do
  match ← v.fields? fieldNames with
  | [name, columns, constraints] =>
    return {
      name := ← required? string? name
      columns := ← required? (list? Column.ofJson?) columns
      constraints := ← optional? [] (list? Constraint.ofJson?) constraints }
  | _ => none

end Table

namespace Sequence

def toJson (s : Sequence) : Json :=
  .obj
    [("name", .str s.name), ("start_value", .ofInt64 s.startValue),
     ("increment_by", .ofInt64 s.incrementBy), ("min_value", .ofOption .ofInt64 s.minValue),
     ("max_value", .ofOption .ofInt64 s.maxValue), ("cache", .ofOption .ofInt64 s.cache),
     ("cycle", .bool s.cycle)]

def fieldNames : List String :=
  ["name", "start_value", "increment_by", "min_value", "max_value", "cache", "cycle"]

def ofJson? (v : Json) : Option Sequence := do
  match ← v.fields? fieldNames with
  | [name, startValue, incrementBy, minValue, maxValue, cache, cycle] =>
    return {
      name := ← required? string? name
      startValue := ← required? int64? startValue
      incrementBy := ← required? int64? incrementBy
      minValue := ← optional? none (option? int64?) minValue
      maxValue := ← optional? none (option? int64?) maxValue
      cache := ← optional? none (option? int64?) cache
      cycle := ← optional? false bool? cycle }
  | _ => none

end Sequence

namespace View

def toJson (v : View) : Json :=
  .obj
    [("name", .str v.name), ("definition", .str v.definition), ("or_replace", .bool v.orReplace)]

def fieldNames : List String := ["name", "definition", "or_replace"]

def ofJson? (v : Json) : Option View := do
  match ← v.fields? fieldNames with
  | [name, definition, orReplace] =>
    return {
      name := ← required? string? name
      definition := ← required? string? definition
      orReplace := ← optional? false bool? orReplace }
  | _ => none

end View

namespace Trigger

def toJson (t : Trigger) : Json :=
  .obj
    [("name", .str t.name), ("table", .str t.table), ("timing", .str t.timing.text),
     ("events", .ofList (fun e => .str e.text) t.events), ("for_each_row", .bool t.forEachRow),
     ("body", .str t.body)]

def fieldNames : List String := ["name", "table", "timing", "events", "for_each_row", "body"]

def ofJson? (v : Json) : Option Trigger := do
  match ← v.fields? fieldNames with
  | [name, table, timing, events, forEachRow, body] =>
    return {
      name := ← required? string? name
      table := ← required? string? table
      timing := ← required? (choice? Timing.ofText?) timing
      events := ← required? (list? (choice? Event.ofText?)) events
      forEachRow := ← optional? false bool? forEachRow
      body := ← required? string? body }
  | _ => none

end Trigger

namespace Schema

def toJson (s : Schema) : Json :=
  .obj
    [("name", .str s.name), ("tables", .ofList Table.toJson s.tables),
     ("sequences", .ofList Sequence.toJson s.sequences), ("views", .ofList View.toJson s.views),
     ("triggers", .ofList Trigger.toJson s.triggers)]

def fieldNames : List String := ["name", "tables", "sequences", "views", "triggers"]

def ofJson? (v : Json) : Option Schema := do
  match ← v.fields? fieldNames with
  | [name, tables, sequences, views, triggers] =>
    return {
      name := ← required? string? name
      tables := ← optional? [] (list? Table.ofJson?) tables
      sequences := ← optional? [] (list? Sequence.ofJson?) sequences
      views := ← optional? [] (list? View.ofJson?) views
      triggers := ← optional? [] (list? Trigger.ofJson?) triggers }
  | _ => none

def toJsonText (s : Schema) : String := s.toJson.prettyText

def ofJsonText? (text : String) : Option Schema := (Json.parse? text.toList).bind ofJson?

end Schema

end DdlBridge
