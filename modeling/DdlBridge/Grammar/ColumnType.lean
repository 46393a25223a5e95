import DdlBridge.Grammar.Parser
import DdlBridge.Schema.Basic

/-!
# Column types

A type is one or more words, parameters, and suffixes. Numeric parameters go to fields of their
own; any others stay in the type's text.
-/

namespace DdlBridge.Grammar

open DdlBridge.Parser

/-- Types whose parameters are a precision and a scale rather than a length. -/
def numericTypes : List String :=
  ["NUMBER", "NUMERIC", "DECIMAL", "DEC", "FLOAT", "DOUBLE", "DOUBLE PRECISION", "REAL"]

/-- Whether a type name whose last word is the first goes on with the second. -/
def continuesType : String → String → Bool
  | "DOUBLE", "PRECISION" => true
  | "CHARACTER", "VARYING" | "CHAR", "VARYING" | "BIT", "VARYING" | "NCHAR", "VARYING" => true
  | "NATIONAL", "CHARACTER" | "NATIONAL", "CHAR" => true
  | "LONG", "RAW" | "LONG", "VARCHAR" => true
  | _, _ => false

def typeWord (words : List String) : Parser (Option (List String)) := do
  let next ← peekKeyword
  if continuesType (words.getLast?.getD "") next then
    advance
    return some (words ++ [next])
  else return none

def intervalFields : List String := ["YEAR", "MONTH", "DAY", "HOUR", "MINUTE", "SECOND", "TO"]

def intervalWord (words : List String) : Parser (Option (List String)) := do
  if let some field ← eatAny intervalFields then return some (words ++ [field])
  else if ← peekIsPunct '(' then
    discard parenthesized
    return some words
  else return none

/-- An unsigned 32-bit number, with an optional plus sign. -/
def parameter? (cs : List Char) : Option UInt32 :=
  let digits := if cs.head? = some '+' then cs.tail else cs
  (Text.natural? digits).bind fun n => if n < UInt32.size then some (UInt32.ofNat n) else none

/-- One parameter: a number, perhaps with a length unit behind it. -/
def typeParameter? (cs : List Char) : Option UInt32 :=
  match Text.words cs with
  | [] => none
  | [number] => parameter? number
  | number :: unit :: _ =>
    if Text.upper unit = ['B', 'Y', 'T', 'E'] ∨ Text.upper unit = ['C', 'H', 'A', 'R'] then
      parameter? number
    else none

def withParameters (column : Column) (text : List Char) : Column :=
  let numeric : Bool := column.dataType ∈ numericTypes
  match (Text.splitAt (· == ',') text).mapM typeParameter?, numeric with
  | some [n], true => { column with precision := some n }
  | some [n], false => { column with length := some n }
  | some [p, s], true => { column with precision := some p, scale := some s }
  | _, _ =>
    { column with dataType := column.dataType ++ "(" ++ String.ofList (Text.trim text) ++ ")" }

/-- `WITH [LOCAL] TIME ZONE` and `WITHOUT TIME ZONE` behind a time type. They leave no place for the
length. -/
def timeZone (column : Column) : Parser Column := do
  let word ← peekKeyword
  let isTime := ['T', 'I', 'M', 'E'].isPrefixOf column.dataType.toList
  if (word = "WITH" ∨ word = "WITHOUT") ∧ isTime then
    advance
    let zone := if ← eatWord "LOCAL" then word ++ " LOCAL" else word
    expectWords ["TIME", "ZONE"]
    let dataType := column.dataType ++ " " ++ zone ++ " TIME ZONE"
    return { column with dataType, length := none }
  else return column

def signedness (column : Column) : Parser (Option Column) := do
  match ← eatAny ["UNSIGNED", "SIGNED", "ZEROFILL"] with
  | some "SIGNED" => return some column
  | some word => return some { column with dataType := column.dataType ++ " " ++ word }
  | none => return none

def arrayBrackets (column : Column) : Parser (Option Column) := do
  if ← eatPunct '[' then
    if (← peek).any (·.kind == .number) then advance
    expectPunct ']'
    return some { column with dataType := column.dataType ++ "[]" }
  else return none

/-- A serial type is an integer type that counts by itself. -/
def withoutSerial (column : Column) : Column :=
  let counting (dataType : String) :=
    { column with dataType, autoIncrement := true, nullable := false }
  match column.dataType with
  | "SERIAL" | "SERIAL4" => counting "INTEGER"
  | "BIGSERIAL" | "SERIAL8" => counting "BIGINT"
  | "SMALLSERIAL" | "SERIAL2" => counting "SMALLINT"
  | _ => column

/-- The column `name` with its type. -/
def columnType (name : String) : Parser Column := do
  let some first := (← peek).filter (·.kind == .word) | fail (.expectedType name)
  advance
  let words ← many typeWord [first.keyword]
  if words.head? = some "INTERVAL" then
    let words ← many intervalWord words
    return { name, dataType := Text.joinWith " " words }
  let column : Column := { name, dataType := Text.joinWith " " words }
  let column ← if ← peekIsPunct '(' then withParameters column <$> parenthesized else pure column
  let column ← timeZone column
  let column ← many signedness column
  let column ← many arrayBrackets column
  return withoutSerial column

end DdlBridge.Grammar
