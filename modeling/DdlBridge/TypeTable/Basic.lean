import DdlBridge.Dialect
import DdlBridge.Schema.Basic
import DdlBridge.TypeTable.MySql
import DdlBridge.TypeTable.Oracle
import DdlBridge.TypeTable.Postgres
import DdlBridge.TypeTable.SqlServer
import DdlBridge.TypeTable.Sqlite

/-!
# Column types in another dialect

Every pair of two dialects has a table. Its keys are source types in upper case, some with
parameters; its values are target types as they are to be written.
-/

namespace DdlBridge

structure TypeTable where
  entries : List (String × String)

namespace TypeTable

/-- The table between two dialects; none from a dialect to itself. -/
def between : Dialect → Dialect → Option TypeTable
  | .oracle, .mysql => some ⟨oracleToMySql⟩
  | .oracle, .postgres => some ⟨oracleToPostgres⟩
  | .oracle, .sqlServer => some ⟨oracleToSqlServer⟩
  | .oracle, .sqlite => some ⟨oracleToSqlite⟩
  | .mysql, .oracle => some ⟨mysqlToOracle⟩
  | .mysql, .postgres => some ⟨mysqlToPostgres⟩
  | .mysql, .sqlServer => some ⟨mysqlToSqlServer⟩
  | .mysql, .sqlite => some ⟨mysqlToSqlite⟩
  | .postgres, .oracle => some ⟨postgresToOracle⟩
  | .postgres, .mysql => some ⟨postgresToMySql⟩
  | .postgres, .sqlServer => some ⟨postgresToSqlServer⟩
  | .postgres, .sqlite => some ⟨postgresToSqlite⟩
  | .sqlServer, .oracle => some ⟨sqlServerToOracle⟩
  | .sqlServer, .mysql => some ⟨sqlServerToMySql⟩
  | .sqlServer, .postgres => some ⟨sqlServerToPostgres⟩
  | .sqlServer, .sqlite => some ⟨sqlServerToSqlite⟩
  | .sqlite, .oracle => some ⟨sqliteToOracle⟩
  | .sqlite, .mysql => some ⟨sqliteToMySql⟩
  | .sqlite, .postgres => some ⟨sqliteToPostgres⟩
  | .sqlite, .sqlServer => some ⟨sqliteToSqlServer⟩
  | .oracle, .oracle | .mysql, .mysql | .postgres, .postgres | .sqlServer, .sqlServer
  | .sqlite, .sqlite => none

/-- The first entry under a key, in any case. -/
def get? (t : TypeTable) (key : String) : Option String :=
  (t.entries.find? fun e => Text.sameName e.1 key).map (·.2)

/-- Target types that take parameters. -/
def parameterized : List String :=
  ["BINARY", "BIT", "CHAR", "CHARACTER", "DATETIME", "DATETIME2", "DATETIMEOFFSET", "DECIMAL",
   "FLOAT", "NCHAR", "NUMBER", "NUMERIC", "NVARCHAR", "NVARCHAR2", "RAW", "TIME", "TIMESTAMP",
   "VARBINARY", "VARCHAR", "VARCHAR2"]

def takesParameters (target : String) : Bool :=
  match Text.words target.toList with
  | head :: _ => parameterized.any fun p => Text.sameName p (String.ofList head)
  | [] => false

/-- The keys under which a type name is looked up: the whole name, its first two words, its first
word. -/
def candidates (dataType : String) : List String :=
  let words := (Text.words dataType.toList).map String.ofList
  [dataType, Text.joinWith " " (words.take 2), words.head?.getD ""].filter (! ·.isEmpty)

/-- The target type of a column, and whether the column's parameters are to be dropped. A type that
is listed with its parameters goes first. -/
def resolve (t : TypeTable) (c : Column) : Option (String × Bool) :=
  let listed := if c.fullType = c.dataType then none else t.get? c.fullType
  match listed with
  | some target => some (target, true)
  | none =>
    ((candidates c.dataType).findSome? t.get?).map fun target =>
      (target, '(' ∈ target.toList || !takesParameters target)

/-- The column with its type in the target dialect; none if the table does not know it. -/
def translate? (t : TypeTable) (c : Column) : Option Column :=
  (t.resolve c).map fun (dataType, drop) =>
    if drop then { c with dataType, length := none, precision := none, scale := none }
    else { c with dataType }

def translate (t : TypeTable) (c : Column) : Column := (t.translate? c).getD c

theorem between_eq_none_iff {a b : Dialect} : between a b = none ↔ a = b := by
  cases a <;> cases b <;> simp [between]

end TypeTable

namespace Schema

/-- The schema with every column type that the table knows in the target dialect. -/
def translate (source target : Dialect) (s : Schema) : Schema :=
  match TypeTable.between source target with
  | none => s
  | some table =>
    { s with tables := s.tables.map fun t => { t with columns := t.columns.map table.translate } }

/-- How many columns `translate` changes. -/
def translatable (source target : Dialect) (s : Schema) : Nat :=
  match TypeTable.between source target with
  | none => 0
  | some table => (s.tables.flatMap (·.columns)).countP fun c => (table.translate? c).isSome

end Schema

end DdlBridge
