import DdlBridge.Grammar.Parser
import DdlBridge.Schema.Basic

/-!
# Views
-/

namespace DdlBridge.Grammar

open DdlBridge.Parser

/-- The tokens behind the first `AS`. -/
def behindAs? : List Token → Option (List Token)
  | [] => none
  | t :: ts => if t.isWord "AS" then some ts else behindAs? ts

/-- Steps behind the next `AS`, over any options before it. -/
def skipToAs (view : String) : Parser Unit := fun _ ts =>
  match behindAs? ts with
  | some rest => .ok ((), rest)
  | none => .error ⟨.expectedAs view, none⟩

/-- `VIEW` and what follows. -/
def viewDefinition (orReplace : Bool) : Parser View := do
  expectWord "VIEW"
  discard (eatWords ["IF", "NOT", "EXISTS"])
  let name ← objectName
  skipParenthesized
  skipToAs name
  let definition ← remainder
  if definition.isEmpty then fail (.noQuery name)
  return { name, definition := String.ofList definition, orReplace }

end DdlBridge.Grammar
