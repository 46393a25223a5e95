import DdlBridge.Grammar.Parser
import DdlBridge.Schema.Basic

/-!
# Triggers

The head of a trigger names its table before or behind the events; the body is kept as written.
-/

namespace DdlBridge.Grammar

open DdlBridge.Parser

def timing : Parser Timing := do
  match ← peekKeyword with
  | "BEFORE" => advance; return .before
  | "AFTER" | "FOR" => advance; return .after
  | "INSTEAD" => expectWords ["INSTEAD", "OF"]; return .insteadOf
  | _ => fail .expectedTiming

def startsEvent (t : Token) : Bool := t.isWord "INSERT" || t.isWord "UPDATE" || t.isWord "DELETE"

/-- One more column of `UPDATE OF`. A comma before another event separates events instead. -/
def updateColumn (_ : Unit) : Parser (Option Unit) := do
  if (← peekIsPunct ',') && !(← peekAt 1).any startsEvent then
    advance
    discard ident
    return some ()
  else return none

def event : Parser Event := do
  match ← eatAny ["INSERT", "UPDATE", "DELETE"] with
  | some "INSERT" => return .insert
  | some "DELETE" => return .delete
  | some _ =>
    if ← eatWord "OF" then
      discard ident
      discard (many updateColumn ())
    return .update
  | none => fail .expectedEvent

def nextEvent (events : List Event) : Parser (Option (List Event)) := do
  if ← eatWord "OR" then return some (events ++ [← event])
  else if ← eatPunct ',' then return some (events ++ [← event])
  else return none

def events : Parser (List Event) := do
  many nextEvent [← event]

/-- One name of `REFERENCING OLD AS o NEW AS n`. -/
def referencingName (_ : Unit) : Parser (Option Unit) := do
  match ← eatAny ["OLD", "NEW", "PARENT"] with
  | some _ =>
    discard (eatAny ["ROW", "TABLE"])
    discard (eatWord "AS")
    discard ident
    return some ()
  | none => return none

/-- A clause between the table and the body; the state says whether the trigger fires per row. -/
def triggerClause (forEachRow : Bool) : Parser (Option Bool) := do
  if ← eatWords ["FOR", "EACH", "ROW"] then return some true
  else if ← eatWords ["FOR", "EACH", "STATEMENT"] then return some false
  else if ← eatWord "REFERENCING" then
    discard (many referencingName ())
    return some forEachRow
  else if (← eatAny ["FOLLOWS", "PRECEDES"]).isSome then
    discard objectName
    return some forEachRow
  else if (← eatAny ["ENABLE", "DISABLE"]).isSome then return some forEachRow
  else return none

def triggerBody (trigger : String) : Parser String := do
  let body ← remainder
  if body.isEmpty then fail (.noBody trigger)
  return String.ofList body

def withOption (_ : Unit) : Parser (Option Unit) := do
  if ← eatWord "WITH" then advance; return some () else return none

/-- `TRIGGER` and what follows. -/
def triggerDefinition : Parser Trigger := do
  expectWord "TRIGGER"
  discard (eatWords ["IF", "NOT", "EXISTS"])
  let name ← objectName
  if ← eatWord "ON" then
    let table ← objectName
    discard (many withOption ())
    let timing ← timing
    let events ← events
    discard (eatWords ["NOT", "FOR", "REPLICATION"])
    expectWord "AS"
    return { name, table, timing, events, body := ← triggerBody name }
  else
    let timing ← timing
    let events ← events
    expectWord "ON"
    let table ← objectName
    let forEachRow ← many triggerClause false
    return { name, table, timing, events, forEachRow, body := ← triggerBody name }

end DdlBridge.Grammar
