import DdlBridge.Text.Basic

/-!
# Schemas

What every dialect is parsed into and written from. Entities stand in source order. Expressions
(defaults, checks, view queries, trigger bodies) are kept as written and never evaluated.
-/

namespace DdlBridge

structure Column where
  name : String
  /-- The type without its parameters, in upper case as parsed. -/
  dataType : String
  length : Option UInt32 := none
  precision : Option UInt32 := none
  scale : Option UInt32 := none
  nullable : Bool := true
  primaryKey : Bool := false
  unique : Bool := false
  autoIncrement : Bool := false
  defaultValue : Option String := none
  deriving DecidableEq, Repr

inductive ConstraintKind where
  | primaryKey
  | foreignKey
  | unique
  | check
  deriving DecidableEq, Repr

/-- A table constraint. The `CHECK` and `REFERENCES` clauses of a column become constraints too. -/
structure Constraint where
  name : Option String := none
  kind : ConstraintKind
  columns : List String := []
  refTable : Option String := none
  refColumns : List String := []
  onDelete : Option String := none
  onUpdate : Option String := none
  expression : Option String := none
  deriving DecidableEq, Repr

structure Table where
  name : String
  columns : List Column := []
  constraints : List Constraint := []
  deriving DecidableEq, Repr

structure Sequence where
  name : String
  startValue : Int64 := 1
  incrementBy : Int64 := 1
  minValue : Option Int64 := none
  maxValue : Option Int64 := none
  cache : Option Int64 := none
  cycle : Bool := false
  deriving DecidableEq, Repr

structure View where
  name : String
  definition : String
  orReplace : Bool := false
  deriving DecidableEq, Repr

inductive Timing where
  | before
  | after
  | insteadOf
  deriving DecidableEq, Repr

inductive Event where
  | insert
  | update
  | delete
  deriving DecidableEq, Repr

structure Trigger where
  name : String
  table : String
  timing : Timing
  events : List Event
  forEachRow : Bool := false
  body : String
  deriving DecidableEq, Repr

structure Schema where
  name : String := ""
  tables : List Table := []
  sequences : List Sequence := []
  views : List View := []
  triggers : List Trigger := []
  deriving DecidableEq, Repr

def ConstraintKind.text : ConstraintKind → String
  | primaryKey => "PRIMARY KEY"
  | foreignKey => "FOREIGN KEY"
  | unique => "UNIQUE"
  | check => "CHECK"

def Timing.text : Timing → String
  | before => "BEFORE"
  | after => "AFTER"
  | insteadOf => "INSTEAD OF"

def Event.text : Event → String
  | insert => "INSERT"
  | update => "UPDATE"
  | delete => "DELETE"

/-- The type with its parameters, such as `VARCHAR2(50)` or `NUMBER(10,2)`. -/
def Column.fullType (c : Column) : String :=
  match c.length, c.precision, c.scale with
  | some n, _, _ => c.dataType ++ s!"({n})"
  | none, some p, some s => c.dataType ++ s!"({p},{s})"
  | none, some p, none => c.dataType ++ s!"({p})"
  | none, none, _ => c.dataType

def Table.findColumn (t : Table) (name : String) : Option Column :=
  t.columns.find? fun c => Text.sameName c.name name

/-- Changes the column that `findColumn` finds. -/
def Table.modifyColumn (t : Table) (name : String) (f : Column → Column) : Table :=
  match t.columns.findIdx? fun c => Text.sameName c.name name with
  | some i => { t with columns := t.columns.modify i f }
  | none => t

/-- The declared primary key constraint. -/
def Table.primaryKey (t : Table) : Option Constraint :=
  t.constraints.find? (·.kind == .primaryKey)

def Table.foreignKeys (t : Table) : List Constraint :=
  t.constraints.filter (·.kind == .foreignKey)

namespace Schema

def isEmpty (s : Schema) : Bool :=
  s.tables.isEmpty && s.sequences.isEmpty && s.views.isEmpty && s.triggers.isEmpty

/-- The entities of `t` follow those of `s`, under the name of `s`. -/
def append (s t : Schema) : Schema :=
  { name := s.name
    tables := s.tables ++ t.tables
    sequences := s.sequences ++ t.sequences
    views := s.views ++ t.views
    triggers := s.triggers ++ t.triggers }

def findTable (s : Schema) (name : String) : Option Table :=
  s.tables.find? fun t => Text.sameName t.name name

/-- Changes the first table that has exactly this name. -/
def modifyTable (s : Schema) (name : String) (f : Table → Table) : Schema :=
  match s.tables.findIdx? (·.name == name) with
  | some i => { s with tables := s.tables.modify i f }
  | none => s

theorem append_assoc (s t u : Schema) : (s.append t).append u = s.append (t.append u) := by
  simp [append, List.append_assoc]

@[simp] theorem append_empty (s : Schema) : s.append {} = s := by
  simp [append]

end Schema

end DdlBridge
