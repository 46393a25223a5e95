import DdlBridge.Proofs.Grammar.Script

/-!
# Steps of a parser

What the small parsers do to known tokens, and the grammar to a `CREATE` (`ofStatement_of_create`).
-/

namespace DdlBridge

open Text

namespace Parser

variable {α β γ : Type}

theorem bind_eq (p : Parser α) (f : α → Parser β) (src : Source) (ts : List Token) :
    (p >>= f) src ts = match p src ts with
      | .ok (a, rest) => f a src rest
      | .error e => .error e := rfl

theorem bind_of_ok {p : Parser α} {src : Source} {ts rest : List Token} {a : α}
    (h : p src ts = .ok (a, rest)) (f : α → Parser β) : (p >>= f) src ts = f a src rest := by
  rw [bind_eq, h]

theorem bind_of_error {p : Parser α} {src : Source} {ts : List Token} {e : Complaint}
    (h : p src ts = .error e) (f : α → Parser β) : (p >>= f) src ts = .error e := by
  rw [bind_eq, h]

theorem bind_assoc (p : Parser α) (f : α → Parser β) (g : β → Parser γ) :
    p >>= f >>= g = p >>= fun a => f a >>= g := by
  funext src ts
  rw [bind_eq, bind_eq, bind_eq]
  cases p src ts with
  | ok out => rfl
  | error e => rfl

theorem pure_bind (a : α) (f : α → Parser β) : pure a >>= f = f a := rfl

theorem ite_bind (c : Prop) [Decidable c] (p q : Parser α) (f : α → Parser β) :
    (if c then p else q) >>= f = if c then p >>= f else q >>= f := by
  split
  all_goals rfl

end Parser

namespace Grammar

open DdlBridge.Parser

theorem isWord_of_keyword {t : Token} {w : String} (h : t.keyword = w) (hw : w ≠ "")
    (hupper : upper w.toList = w.toList) : t.isWord w = true := by
  unfold Token.keyword at h
  split at h
  case isTrue hkind =>
    have htext : upper t.text = w.toList := by rw [← h, String.toList_ofList]
    simp [Token.isWord, hkind, htext, hupper]
  case isFalse => exact absurd h.symm hw

theorem expectWord_of_keyword {src : Source} {t : Token} {w : String} (h : t.keyword = w) (hw : w ≠ "")
    (hupper : upper w.toList = w.toList) (ts : List Token) :
    expectWord w src (t :: ts) = .ok ((), ts) := by
  have hstarts : startsWith [w] (t :: ts) = true := by
    rw [startsWith, isWord_of_keyword h hw hupper]
    rfl
  have heat : eatWords [w] src (t :: ts) = .ok (true, ts) := by
    rw [eatWords, hstarts]
    rfl
  rw [expectWord, expectWords, bind_of_ok heat]
  rfl

/-- What the statement adds to a schema once its object is known. -/
def objectSchema (found : CreateHead) : Option Object → Parser Schema
  | some .table => do return { tables := (← tableDefinition).toList }
  | some .sequence => do return { sequences := [← sequenceDefinition] }
  | some .view => do return { views := [← viewDefinition found.orReplace] }
  | some .trigger => do return { triggers := [← triggerDefinition] }
  | none => return {}

theorem createStatement_eq : createStatement =
    expectWord "CREATE" >>= fun _ => objectHead >>= fun head => objectSchema head.1 head.2 := rfl

/-- A statement that starts with `CREATE` is read from its object on. -/
theorem statement_of_create {src : Source} {create : Token} {ts rest : List Token} {found : CreateHead}
    {object : Option Object} (hcreate : create.keyword = "CREATE")
    (hhead : createHead {} ts = some (found, object, rest)) :
    statement src (create :: ts) = objectSchema found object src rest := by
  have hobject : objectHead src ts = .ok ((found, object), rest) := by rw [objectHead, hhead]
  have hverb : statement src (create :: ts) = createStatement src (create :: ts) := by
    have hif : (if create.keyword = "CREATE" then createStatement
        else if create.keyword ∈ skippedVerbs then pure {}
        else fail (.unexpectedStatement (String.ofList create.text)) : Parser Schema) =
        createStatement := if_pos hcreate
    rw [← hif]
    rfl
  rw [hverb, createStatement_eq,
    bind_of_ok (expectWord_of_keyword hcreate (by decide) (by decide) ts), bind_of_ok hobject]

theorem ofStatement_of_create {d : Dialect} {s : Statement} {create : Token} {ts rest more : List Token}
    {found : CreateHead} {object : Option Object} {fragment : Schema}
    (htokens : tokenize d s.text = create :: ts) (hcreate : create.keyword = "CREATE")
    (hhead : createHead {} ts = some (found, object, rest))
    (hread : objectSchema found object ⟨s.text, d⟩ rest = .ok (fragment, more)) :
    ofStatement d s = .ok fragment := by
  rw [ofStatement_eq, htokens, statement_of_create hcreate hhead, hread]

end Grammar

end DdlBridge
