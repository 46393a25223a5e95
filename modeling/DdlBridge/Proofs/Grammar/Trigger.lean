import DdlBridge.Proofs.Grammar.Parser

/-!
# Reading a trigger

A trigger is a head and a body. The head ends where the body starts (`triggerStart?`), and the body is
the rest of the statement as it is written (`ofStatement_of_triggerStart?`).
-/

namespace DdlBridge

open Text

namespace Grammar

open DdlBridge.Parser

/-- What stands before the body of a trigger. -/
def triggerHead : Parser Trigger := do
  expectWord "TRIGGER"
  discard (eatWords ["IF", "NOT", "EXISTS"])
  let name ← objectName
  if ← eatWord "ON" then
    let table ← objectName
    discard (many withOption ())
    let timing ← timing
    let events ← events
    discard (eatWords ["NOT", "FOR", "REPLICATION"])
    expectWord "AS"
    return { name, table, timing, events, body := "" }
  else
    let timing ← timing
    let events ← events
    expectWord "ON"
    let table ← objectName
    let forEachRow ← many triggerClause false
    return { name, table, timing, events, forEachRow, body := "" }

theorem triggerDefinition_eq : triggerDefinition = do
    let head ← triggerHead
    return { head with body := ← triggerBody head.name } := by
  simp only [triggerDefinition, triggerHead, bind_assoc, ite_bind, pure_bind]

/-- The head of the trigger that the grammar reads, and the byte at which its body starts. -/
def triggerStart? (d : Dialect) (text : List Char) : Option (Trigger × Nat) :=
  match tokenize d text with
  | [] => none
  | create :: ts =>
    if create.keyword = "CREATE" then
      match createHead {} ts with
      | some (_, some .trigger, ts) =>
        match triggerHead ⟨text, d⟩ ts with
        | .ok (head, body :: _) => some (head, body.offset)
        | _ => none
      | _ => none
    else none

theorem triggerStart?_of_tokens {d : Dialect} {text : List Char} {ts rest more : List Token}
    {found : CreateHead} {head : Trigger} {body : Token}
    (htokens : tokenize d text = ⟨.word, "CREATE".toList, 0⟩ :: ts)
    (hobject : createHead {} ts = some (found, some .trigger, rest))
    (hhead : triggerHead ⟨text, d⟩ rest = .ok (head, body :: more)) :
    triggerStart? d text = some (head, body.offset) := by
  have hcreate : (⟨.word, "CREATE".toList, 0⟩ : Token).keyword = "CREATE" := rfl
  rw [triggerStart?, htokens]
  dsimp only
  rw [if_pos hcreate, hobject]
  dsimp only
  rw [hhead]

theorem triggerDefinition_of_head {src : Source} {ts rest : List Token} {head : Trigger} {body : Token}
    (h : triggerHead src ts = .ok (head, body :: rest))
    (hbody : trim (dropBytes body.offset src.text) ≠ []) : triggerDefinition src ts =
      .ok ({ head with body := String.ofList (trim (dropBytes body.offset src.text)) }, []) := by
  have hne : (trim (dropBytes body.offset src.text)).isEmpty = false := by
    rw [← Bool.not_eq_true, List.isEmpty_iff]
    exact hbody
  have hread : remainder src (body :: rest) = .ok (trim (dropBytes body.offset src.text), []) := rfl
  have hread' : triggerBody head.name src (body :: rest) =
      .ok (String.ofList (trim (dropBytes body.offset src.text)), []) := by
    rw [triggerBody, bind_of_ok hread, hne]
    rfl
  rw [triggerDefinition_eq, bind_of_ok h, bind_of_ok hread']
  rfl

/-- The body of a trigger is the rest of its statement. -/
theorem ofStatement_of_triggerStart? {d : Dialect} {s : Statement} {head : Trigger} {n : Nat}
    (h : triggerStart? d s.text = some (head, n)) (hbody : trim (dropBytes n s.text) ≠ []) :
    ofStatement d s =
      .ok { triggers := [{ head with body := String.ofList (trim (dropBytes n s.text)) }] } := by
  unfold triggerStart? at h
  split at h
  case h_1 => exact absurd h (by simp)
  case h_2 create ts htokens =>
    split at h
    case isFalse => exact absurd h (by simp)
    case isTrue hcreate =>
      split at h
      case h_2 => exact absurd h (by simp)
      case h_1 found ts' hhead =>
        split at h
        case h_2 => exact absurd h (by simp)
        case h_1 head' body rest htrigger =>
          obtain ⟨rfl, rfl⟩ := Prod.mk.inj (Option.some.inj h)
          have hdefinition := triggerDefinition_of_head htrigger hbody
          exact ofStatement_of_create htokens hcreate hhead (bind_of_ok hdefinition _)

end Grammar

end DdlBridge
