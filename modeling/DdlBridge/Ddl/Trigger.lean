import DdlBridge.Ddl.Identifier
import DdlBridge.Schema.Basic

/-!
# Triggers in DDL

The dialects differ in whether a trigger may fire on several events, where its table is named, and
what its body may be.
-/

namespace DdlBridge.Ddl

/-- The text with exactly one `;` at its end, white space there aside. -/
def terminated (body : String) : String :=
  let cs := Text.trimEnd body.toList
  if cs.getLast? = some ';' then String.ofList cs else String.ofList cs ++ ";"

/-- Whether the text starts with `word`, in any case. -/
def startsWith (word : String) (body : List Char) : Bool :=
  word.toList.isPrefixOf (Text.upper body)

namespace Style

def eventList (separator : String) (t : Trigger) : String :=
  Text.joinWith separator (t.events.map (·.text))

/-- The name of the trigger that stands for one event of `t`. -/
def eventName (t : Trigger) (e : Event) : String :=
  if 1 < t.events.length then t.name ++ "_" ++ String.ofList (Text.lower e.text.toList) else t.name

/-- One trigger for each event. -/
def perEvent (style : Style) (t : Trigger) (note : String) (timing : Timing) (body : String) :
    String :=
  Text.joinWith "\n\n" (t.events.map fun e =>
    note ++ "CREATE TRIGGER " ++ style.quote (eventName t e) ++ " " ++ timing.text ++ " " ++
      e.text ++ " ON " ++ style.quote t.table ++ " FOR EACH ROW\n" ++ body)

def standardTrigger (style : Style) (t : Trigger) : String :=
  "CREATE TRIGGER " ++ style.quote t.name ++ " " ++ t.timing.text ++ " " ++ eventList " OR " t ++
    " ON " ++ style.quote t.table ++ (if t.forEachRow then " FOR EACH ROW" else "") ++ "\n" ++
    terminated t.body

def oracleTrigger (style : Style) (t : Trigger) : String :=
  "CREATE OR REPLACE TRIGGER " ++ style.quote t.name ++ "\n" ++ t.timing.text ++ " " ++
    eventList " OR " t ++ " ON " ++ style.quote t.table ++
    (if t.forEachRow then "\nFOR EACH ROW" else "") ++ "\n" ++ terminated t.body ++ "\n/"

def mysqlTrigger (style : Style) (t : Trigger) : String :=
  match t.timing with
  | .insteadOf =>
    style.perEvent t "-- INSTEAD OF triggers are not supported by MySQL; emitted as BEFORE.\n"
      .before (terminated t.body)
  | timing => style.perEvent t "" timing (terminated t.body)

/-- A body that calls a function stays; any other becomes a function named after the trigger. -/
def postgresTrigger (style : Style) (t : Trigger) : String :=
  let body := Text.trim t.body.toList
  let head := "CREATE TRIGGER " ++ style.quote t.name ++ " " ++ t.timing.text ++ " " ++
    eventList " OR " t ++ " ON " ++ style.quote t.table ++ " FOR EACH " ++
    (if t.forEachRow then "ROW" else "STATEMENT")
  if startsWith "EXECUTE " body then head ++ "\n" ++ terminated (String.ofList body)
  else
    let function := style.quote (t.name ++ "_fn")
    "CREATE OR REPLACE FUNCTION " ++ function ++ "() RETURNS trigger AS $$\n" ++
      terminated (String.ofList body) ++ "\n$$ LANGUAGE plpgsql;\n\n" ++ head ++
      "\nEXECUTE FUNCTION " ++ function ++ "();"

def sqlServerTrigger (style : Style) (t : Trigger) : String :=
  let (timing, note) : Timing × String :=
    match t.timing with
    | .before => (.after, "-- BEFORE triggers are not supported by SQL Server; emitted as AFTER.\n")
    | timing => (timing, "")
  "GO\n" ++ note ++ "CREATE TRIGGER " ++ style.quote t.name ++ " ON " ++ style.quote t.table ++
    " " ++ timing.text ++ " " ++ eventList ", " t ++ " AS\n" ++ terminated t.body ++ "\nGO"

/-- The body stands between `BEGIN` and `END`. -/
def sqliteTrigger (style : Style) (t : Trigger) : String :=
  let body := Text.trim t.body.toList
  let text := terminated (String.ofList body)
  style.perEvent t "" t.timing
    (if startsWith "BEGIN" body then text else "BEGIN\n    " ++ text ++ "\nEND;")

def createTrigger (style : Style) (t : Trigger) : String :=
  match style with
  | .standard => style.standardTrigger t
  | .of .oracle => style.oracleTrigger t
  | .of .mysql => style.mysqlTrigger t
  | .of .postgres => style.postgresTrigger t
  | .of .sqlServer => style.sqlServerTrigger t
  | .of .sqlite => style.sqliteTrigger t

end Style

end DdlBridge.Ddl
