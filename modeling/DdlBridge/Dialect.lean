import DdlBridge.Text.Basic

/-!
# Dialects

The five dialects, the names each answers to, and the lexical rules they disagree on.
-/

namespace DdlBridge

inductive Dialect where
  | oracle
  | mysql
  | postgres
  | sqlServer
  | sqlite
  deriving DecidableEq, Repr

/-- Lexical rules that differ between dialects. -/
structure LexicalRules where
  /-- A backtick opens a quoted identifier. -/
  backtickQuotes : Bool := false
  /-- `[ident]` is a quoted identifier. -/
  bracketQuotes : Bool := false
  /-- `$tag$ … $tag$` is a literal. -/
  dollarQuotes : Bool := false
  /-- `#` opens a comment that runs to the end of the line. -/
  hashComments : Bool := false
  /-- A backslash escapes the next character of a literal. -/
  backslashEscapes : Bool := false
  /-- A line that holds only `/` ends a statement, and a stored unit ends only there. -/
  slashLines : Bool := false
  /-- A line that holds only `GO` ends a statement. -/
  goLines : Bool := false
  deriving DecidableEq, Repr

namespace Dialect

def all : List Dialect := [.oracle, .mysql, .postgres, .sqlServer, .sqlite]

def title : Dialect → String
  | oracle => "Oracle"
  | mysql => "MySQL"
  | postgres => "PostgreSQL"
  | sqlServer => "SQL Server"
  | sqlite => "SQLite"

/-- The name a dialect has in data files. -/
def key : Dialect → String
  | oracle => "oracle"
  | mysql => "mysql"
  | postgres => "postgres"
  | sqlServer => "sqlserver"
  | sqlite => "sqlite"

/-- The spellings accepted in data files. -/
def ofKey? : String → Option Dialect
  | "oracle" => some oracle
  | "mysql" | "mariadb" => some mysql
  | "postgres" | "postgresql" | "pg" => some postgres
  | "sqlserver" | "mssql" => some sqlServer
  | "sqlite" => some sqlite
  | _ => none

/-- The spellings accepted from a person: those of data files and two more, in any case and with
white space around them. -/
def ofName? (name : String) : Option Dialect :=
  match String.ofList (Text.lower (Text.trim name.toList)) with
  | "tsql" => some sqlServer
  | "sqlite3" => some sqlite
  | key => ofKey? key

def rules : Dialect → LexicalRules
  | oracle => { slashLines := true }
  | mysql => { backtickQuotes := true, hashComments := true, backslashEscapes := true }
  | postgres => { dollarQuotes := true }
  | sqlServer => { bracketQuotes := true, goLines := true }
  | sqlite => { backtickQuotes := true, bracketQuotes := true }

theorem ofKey?_key (d : Dialect) : ofKey? d.key = some d := by
  cases d <;> rfl

end Dialect

end DdlBridge
