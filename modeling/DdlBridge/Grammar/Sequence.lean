import DdlBridge.Grammar.Parser
import DdlBridge.Schema.Basic

/-!
# Sequences
-/

namespace DdlBridge.Grammar

open DdlBridge.Parser

def sequenceClause (s : Sequence) : Parser (Option Sequence) := do
  let some t ← peek | return none
  match t.keyword with
  | "START" =>
    advance
    discard (eatWord "WITH")
    return some { s with startValue := ← signedNumber }
  | "INCREMENT" =>
    advance
    discard (eatWord "BY")
    return some { s with incrementBy := ← signedNumber }
  | "MINVALUE" =>
    advance
    return some { s with minValue := some (← signedNumber) }
  | "MAXVALUE" =>
    advance
    return some { s with maxValue := some (← signedNumber) }
  | "CACHE" =>
    advance
    return some { s with cache := some (← signedNumber) }
  | "CYCLE" =>
    advance
    return some { s with cycle := true }
  | "NOCYCLE" =>
    advance
    return some { s with cycle := false }
  | "NO" | "AS" =>
    advance
    advance
    return some s
  | "OWNED" =>
    expectWords ["OWNED", "BY"]
    discard objectName
    return some s
  | _ =>
    advance
    return some s

/-- `SEQUENCE` and what follows. -/
def sequenceDefinition : Parser Sequence := do
  expectWord "SEQUENCE"
  discard (eatWords ["IF", "NOT", "EXISTS"])
  many sequenceClause { name := ← objectName }

end DdlBridge.Grammar
