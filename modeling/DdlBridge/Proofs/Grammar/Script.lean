import DdlBridge.Grammar.Script
import DdlBridge.Proofs.Statement.Split

/-!
# The schema of a list of statements

A script defines the schema that its statements add to the empty one, in order (`define`). Where a
statement stands shows in the offset of its error only, and the schema before it is kept in front of
what it adds.
-/

namespace DdlBridge

open Statement Text

theorem Complaint.error_add (n base : Nat) (text : List Char) (e : Complaint) :
    e.error (n + base) text = (e.error base text).relocate n := by
  simp only [Complaint.error, Error.relocate]
  rw [Nat.add_assoc, Nat.add_comm]

namespace Grammar

theorem ofStatement_moved (d : Dialect) (n : Nat) (s : Statement) :
    ofStatement d (s.moved n) = (ofStatement d s).mapError (Error.relocate n) := by
  rw [ofStatement_eq, ofStatement_eq]
  simp only [moved]
  cases statement ⟨s.text, d⟩ (tokenize d s.text) with
  | ok out => rfl
  | error e => simp only [Complaint.error_add, Except.mapError]

theorem exists_of_ofStatement_eq_error {d : Dialect} {s : Statement} {e : Error}
    (h : ofStatement d s = .error e) : ∃ offset text, e = .malformed offset text := by
  rw [ofStatement_eq] at h
  split at h
  · exact absurd h (by simp)
  · exact ⟨_, _, (Except.error.inj h).symm⟩

/-- What statements add to a schema. -/
def define (d : Dialect) (schema : Schema) (statements : List Statement) : Except Error Schema :=
  statements.foldlM (fun schema s => schema.append <$> ofStatement d s) schema

variable {d : Dialect} {schema : Schema} {s : Statement} {statements : List Statement}

theorem define_nil : define d schema [] = .ok schema := rfl

theorem define_cons_of_ok {fragment : Schema} (h : ofStatement d s = .ok fragment) :
    define d schema (s :: statements) = define d (schema.append fragment) statements := by
  rw [define, List.foldlM_cons, h]
  rfl

theorem define_cons_of_error {e : Error} (h : ofStatement d s = .error e) :
    define d schema (s :: statements) = .error e := by
  rw [define, List.foldlM_cons, h]
  rfl

theorem define_append (front rest : List Statement) :
    define d schema (front ++ rest) = define d schema front >>= (define d · rest) :=
  List.foldlM_append

theorem exists_of_define_eq_error {e : Error} (h : define d schema statements = .error e) :
    ∃ offset text, e = .malformed offset text := by
  induction statements generalizing schema with
  | nil => exact absurd h (by simp [define_nil])
  | cons s statements ih =>
    cases hs : ofStatement d s with
    | ok fragment => exact ih (define_cons_of_ok hs ▸ h)
    | error e' =>
      rw [define_cons_of_error hs] at h
      exact Except.error.inj h ▸ exists_of_ofStatement_eq_error hs

/-- A rejected statement is never passed over. -/
theorem exists_define_eq_error {e : Error} (schema : Schema) (hmem : s ∈ statements)
    (h : ofStatement d s = .error e) : ∃ e', define d schema statements = .error e' := by
  induction statements generalizing schema with
  | nil => exact absurd hmem List.not_mem_nil
  | cons s' statements ih =>
    cases hs' : ofStatement d s' with
    | error e' => exact ⟨e', define_cons_of_error hs'⟩
    | ok fragment =>
      rw [define_cons_of_ok hs']
      rcases List.mem_cons.1 hmem with rfl | hmem
      · rw [h] at hs'
        exact absurd hs' (by simp)
      · exact ih _ hmem

/-- What statements add does not depend on the schema they are added to, nor on where they stand. -/
theorem define_moved (schema base : Schema) (n : Nat) (statements : List Statement) :
    define d (base.append schema) (statements.map (moved n)) =
      ((define d schema statements).map base.append).mapError (Error.relocate n) := by
  induction statements generalizing schema with
  | nil => rfl
  | cons s statements ih =>
    have hmoved := ofStatement_moved d n s
    rw [List.map_cons]
    cases hs : ofStatement d s with
    | ok fragment =>
      rw [hs] at hmoved
      rw [define_cons_of_ok hs, define_cons_of_ok hmoved, Schema.append_assoc]
      exact ih (schema.append fragment)
    | error e =>
      rw [hs] at hmoved
      rw [define_cons_of_error hs, define_cons_of_error hmoved]
      rfl

end Grammar

theorem parseScript_of_ok {d : Dialect} {script : List Char} {statements : List Statement}
    (hscript : (trim script).isEmpty = false) (h : split d.rules script = .ok statements) :
    parseScript d script = Grammar.define d {} statements := by
  unfold parseScript
  rw [hscript, h]
  rfl

theorem parseScript_of_error {d : Dialect} {script : List Char} {e : Error}
    (hscript : (trim script).isEmpty = false) (h : split d.rules script = .error e) :
    parseScript d script = .error e := by
  unfold parseScript
  rw [hscript, h]
  rfl

theorem parseScript_eq_ok_iff {d : Dialect} {script : List Char} (hscript : (trim script).isEmpty = false)
    (schema : Schema) : parseScript d script = .ok schema ↔
      ∃ statements, split d.rules script = .ok statements ∧
        Grammar.define d {} statements = .ok schema := by
  cases hsplit : split d.rules script with
  | error e => simp [parseScript_of_error hscript hsplit]
  | ok statements => simp [parseScript_of_ok hscript hsplit]

/-! ### Properties of schemas -/

/-- What holds of all that the statements add holds of the schema, if appending keeps it. -/
theorem Grammar.forall_define {P : Schema → Prop} (happend : ∀ s s', P s → P s' → P (s.append s'))
    {d : Dialect} {schema schema' : Schema} {statements : List Statement}
    (hstatement : ∀ s ∈ statements, ∀ fragment, ofStatement d s = .ok fragment → P fragment)
    (hschema : P schema) (h : define d schema statements = .ok schema') : P schema' := by
  induction statements generalizing schema with
  | nil =>
    obtain rfl := Except.ok.inj h
    exact hschema
  | cons s statements ih =>
    rw [List.forall_mem_cons] at hstatement
    cases hs : ofStatement d s with
    | error e =>
      rw [define_cons_of_error hs] at h
      contradiction
    | ok fragment =>
      rw [define_cons_of_ok hs] at h
      exact ih hstatement.2 (happend _ _ hschema (hstatement.1 fragment hs)) h

theorem forall_parseScript_of_piece {P : Schema → Prop} (hempty : P {})
    (happend : ∀ s s', P s → P s' → P (s.append s')) {d : Dialect}
    (hstatement : ∀ start raw s, ofPiece? d.rules start raw = some s →
      ∀ fragment, Grammar.ofStatement d s = .ok fragment → P fragment)
    {script : List Char} {schema : Schema} (h : parseScript d script = .ok schema) : P schema := by
  cases hscript : (trim script).isEmpty with
  | true =>
    unfold parseScript at h
    rw [hscript] at h
    contradiction
  | false =>
    obtain ⟨statements, hsplit, hdefine⟩ := (parseScript_eq_ok_iff hscript schema).1 h
    refine Grammar.forall_define happend (fun s hs => ?_) hempty hdefine
    obtain ⟨start, raw, hpiece⟩ := exists_piece_of_mem_split hsplit hs
    exact hstatement start raw s hpiece

theorem forall_parseScript {P : Schema → Prop} (hempty : P {})
    (happend : ∀ s s', P s → P s' → P (s.append s')) {d : Dialect}
    (hstatement : ∀ s fragment, Grammar.ofStatement d s = .ok fragment → P fragment)
    {script : List Char} {schema : Schema} (h : parseScript d script = .ok schema) : P schema :=
  forall_parseScript_of_piece hempty happend (fun _ _ s _ => hstatement s) h

end DdlBridge
