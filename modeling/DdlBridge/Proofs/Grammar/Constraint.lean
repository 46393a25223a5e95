import DdlBridge.Grammar.Table
import DdlBridge.Proofs.Grammar.Column

/-!
# Reading constraints

A constraint is a name, perhaps, and a body. The grammar reads a plain one as it is
(`reads_tableConstraint`), whichever of the four kinds it is of.
-/

namespace DdlBridge

open Text Atom Ddl DdlBridge.Parser DdlBridge.Grammar

variable {d : Dialect} {more : List Atom}

/-! ### Referential actions -/

/-- What may happen to the rows that refer to a row. -/
def referentialActions : List String :=
  ["CASCADE", "RESTRICT", "NO ACTION", "SET NULL", "SET DEFAULT"]

def Atom.action (a : String) : List Atom := spell ((Text.words a.toList).map String.ofList)

theorem reads_refAction {a : String} (ha : a ∈ referentialActions) (more : List Atom) :
    Reads d refAction (Atom.action a) a more := by
  simp only [referentialActions, List.mem_cons, List.not_mem_nil, or_false] at ha
  obtain rfl | rfl | rfl | rfl | rfl := ha
  · have hatoms : Atom.action "CASCADE" = [word "CASCADE".toList] := by decide +kernel
    rw [hatoms]
    exact Reads.peekKeyword fun _ => Reads.bind_pure (reads_advance_word _ more) (Reads.pure _ more)
  · have hatoms : Atom.action "RESTRICT" = [word "RESTRICT".toList] := by decide +kernel
    rw [hatoms]
    exact Reads.peekKeyword fun _ => Reads.bind_pure (reads_advance_word _ more) (Reads.pure _ more)
  · have hatoms : Atom.action "NO ACTION" = spell ["NO", "ACTION"] := by decide +kernel
    rw [hatoms]
    exact Reads.peekKeyword fun _ => Reads.bind_pure (reads_expectWords _ more) (Reads.pure _ more)
  · have hatoms : Atom.action "SET NULL" = spell ["SET", "NULL"] := by decide +kernel
    rw [hatoms]
    refine Reads.peekKeyword fun _ =>
      Reads.bind (l := [word "SET".toList]) (reads_advance_word _ _) (Reads.blank ' ' ?_)
    exact Reads.bind_pure (reads_eatAny (w := "NULL") (by decide) (by decide) more) (Reads.pure _ more)
  · have hatoms : Atom.action "SET DEFAULT" = spell ["SET", "DEFAULT"] := by decide +kernel
    rw [hatoms]
    refine Reads.peekKeyword fun _ =>
      Reads.bind (l := [word "SET".toList]) (reads_advance_word _ _) (Reads.blank ' ' ?_)
    exact Reads.bind_pure (reads_eatAny (w := "DEFAULT") (by decide) (by decide) more) (Reads.pure _ more)

/-! ### References -/

/-- What may stand behind the columns that a foreign key refers to. -/
inductive RefClause where
  | onDelete (action : String)
  | onUpdate (action : String)

namespace RefClause

def action : RefClause → String
  | onDelete action | onUpdate action => action

def atoms : RefClause → List Atom
  | onDelete action => spell ["ON", "DELETE"] ++ blank ' ' :: Atom.action action
  | onUpdate action => spell ["ON", "UPDATE"] ++ blank ' ' :: Atom.action action

/-- The foreign key with the clause behind it. -/
def apply (fk : Constraint) : RefClause → Constraint
  | onDelete action => { fk with onDelete := some action }
  | onUpdate action => { fk with onUpdate := some action }

end RefClause

theorem reads_refClause {k : RefClause} (hk : k.action ∈ referentialActions) (fk : Constraint)
    (more : List Atom) : Reads d (refClause fk) (blank ' ' :: k.atoms) (some (k.apply fk)) more := by
  refine Reads.blank ' ' ?_
  cases k with
  | onDelete action =>
    refine Reads.bind (reads_eatWords ["ON", "DELETE"] _) (Reads.blank ' ' ?_)
    exact Reads.bind_pure (reads_refAction hk more) (Reads.pure _ more)
  | onUpdate action =>
    have hdelete : ∀ as : List Atom,
        Reads d (eatWords ["ON", "DELETE"]) [] false (spell ["ON", "UPDATE"] ++ as) :=
      fun as front => rfl
    refine Reads.bind_nil (hdelete _) ?_
    refine Reads.bind (reads_eatWords ["ON", "UPDATE"] _) (Reads.blank ' ' ?_)
    exact Reads.bind_pure (reads_refAction hk more) (Reads.pure _ more)

theorem isWord_of_endsElement {t : Token} (h : EndsElement t) {w : String}
    (hupper : String.ofList (upper w.toList) = w) (hw : w ≠ "") : t.isWord w = false :=
  isWord_of_keyword_ne hupper fun heq => hw (heq.symm.trans (keyword_of_endsElement h))

theorem reads_refClause_none (fk : Constraint) (h : Follows EndsElement more) :
    Reads d (refClause fk) [] none more := by
  have hword : ∀ (w : String) (ws : List String), String.ofList (upper w.toList) = w → w ≠ "" →
      Reads d (eatWords (w :: ws)) [] false more := fun w ws hupper hw =>
    reads_eatWords_none (h.imp fun t ht => isWord_of_endsElement ht hupper hw)
  refine Reads.bind_nil (hword "ON" _ (by decide) (by decide)) ?_
  refine Reads.bind_nil (hword "ON" _ (by decide) (by decide)) ?_
  refine Reads.bind_nil (hword "MATCH" _ (by decide) (by decide)) ?_
  refine Reads.bind_nil (hword "DEFERRABLE" _ (by decide) (by decide)) ?_
  refine Reads.bind_nil (hword "NOT" _ (by decide) (by decide)) ?_
  exact Reads.bind_nil (hword "INITIALLY" _ (by decide) (by decide)) (Reads.pure none more)

/-- Names in parentheses. -/
def Atom.nameList (d : Dialect) (names : List String) : List Atom :=
  punct '(' :: (Atom.names d names ++ [punct ')'])

/-- Names in parentheses behind a blank, unless there are none. -/
def Atom.refColumns (d : Dialect) (names : List String) : List Atom :=
  if names.isEmpty then [] else blank ' ' :: Atom.nameList d names

/-- Clauses with a blank before each. -/
def Atom.refClauses (ks : List RefClause) : List Atom := ks.flatMap fun k => blank ' ' :: k.atoms

/-- The clauses of a foreign key. -/
def Constraint.refClauses (c : Constraint) : List RefClause :=
  (c.onDelete.map .onDelete).toList ++ (c.onUpdate.map .onUpdate).toList

theorem reads_refClauses {ks : List RefClause} (hks : ∀ k ∈ ks, k.action ∈ referentialActions)
    (fk : Constraint) (h : Follows EndsElement more) :
    Reads d (many refClause fk) (Atom.refClauses ks) (ks.foldl RefClause.apply fk) more :=
  Reads.many_flatMap (P := fun _ => True) (fun k hk fk more _ => reads_refClause (hks k hk) fk more)
    (fun _ _ _ => trivial) (fun k _ => by cases k with | _ => exact List.cons_ne_nil _ _)
    (fun fk => reads_refClause_none fk h) trivial fk

theorem reads_references (refTable : String) (refColumns : List String) {ks : List RefClause}
    (hks : ∀ k ∈ ks, k.action ∈ referentialActions) (fk : Constraint) (hfk : fk.refColumns = [])
    (h : Follows EndsElement more) : Reads d (references fk)
      (Atom.name d refTable :: (Atom.refColumns d refColumns ++ Atom.refClauses ks))
      (ks.foldl RefClause.apply { fk with refTable := some refTable, refColumns }) more := by
  have hclauses : ∀ c, c ∉ [',', ')'] →
      Follows (·.isPunct c = false) (Atom.refClauses ks ++ more) := by
    intro c hc
    cases ks with
    | nil => exact h.imp fun t ht => isPunct_of_endsElement ht hc
    | cons k ks =>
      cases k with
      | _ => exact Follows.blank (follows_word (fun _ => rfl) _) ' '
  have hdot : Follows (·.isPunct '.' = false)
      (Atom.refColumns d refColumns ++ Atom.refClauses ks ++ more) := by
    unfold Atom.refColumns
    split
    · exact hclauses '.' (by decide)
    · exact Follows.blank (follows_punct (fun _ => rfl) _) ' '
  refine Reads.bind (l := [Atom.name d refTable])
    (r := Atom.refColumns d refColumns ++ Atom.refClauses ks) (reads_objectName d refTable hdot) ?_
  cases hempty : refColumns.isEmpty with
  | true =>
    obtain rfl := List.isEmpty_iff.1 hempty
    rw [Atom.refColumns, hempty, if_pos rfl, List.nil_append]
    refine Reads.peekIsPunct fun n => ?_
    rw [any_head?_of_follows (hclauses '(' (by decide)) n]
    have hread := reads_refClauses (d := d) hks { fk with refTable := some refTable } h
    rw [← hfk]
    exact hread
  | false =>
    rw [Atom.refColumns, hempty, if_neg (by simp)]
    refine Reads.blank ' ' (Reads.peekIsPunct fun n => ?_)
    have hne : refColumns ≠ [] := by
      rintro rfl
      exact absurd hempty (by simp)
    exact Reads.bind (reads_columnList d hne _) (reads_refClauses hks _ h)

/-! ### Constraints -/

/-- The action is one that a foreign key knows. -/
def KnownAction (a : Option String) : Prop := ∀ action ∈ a, action ∈ referentialActions

instance (a : Option String) : Decidable (KnownAction a) :=
  inferInstanceAs (Decidable (∀ action ∈ a, action ∈ referentialActions))

/-- An expression that stands on its own in parentheses. -/
structure Enclosable (as : List Atom) : Prop where
  balanced : Balanced as
  trimmed : trim (textOf as) = textOf as

/-- A constraint that is written and read as it is; the atoms are those of its expression. -/
inductive PlainConstraint : Constraint → List Atom → Prop where
  | primaryKey (name : Option String) {columns : List String} (h : columns ≠ []) :
      PlainConstraint { name, kind := .primaryKey, columns } []
  | unique (name : Option String) {columns : List String} (h : columns ≠ []) :
      PlainConstraint { name, kind := .unique, columns } []
  | check (name : Option String) {expression : List Atom} (h : Enclosable expression) :
      PlainConstraint
        { name, kind := .check, expression := some (String.ofList (textOf expression)) } expression
  | foreignKey (name : Option String) {columns : List String} (refTable : String)
      (refColumns : List String) {onDelete onUpdate : Option String} (h : columns ≠ [])
      (hdelete : KnownAction onDelete) (hupdate : KnownAction onUpdate) :
      PlainConstraint
        { name, kind := .foreignKey, columns, refTable := some refTable, refColumns, onDelete,
          onUpdate } []

namespace Constraint

def bodyAtoms (d : Dialect) (c : Constraint) (expression : List Atom) : List Atom :=
  match c.kind with
  | .primaryKey => spell ["PRIMARY", "KEY"] ++ blank ' ' :: Atom.nameList d c.columns
  | .unique => word "UNIQUE".toList :: blank ' ' :: Atom.nameList d c.columns
  | .check => word "CHECK".toList :: blank ' ' :: punct '(' :: (expression ++ [punct ')'])
  | .foreignKey =>
    spell ["FOREIGN", "KEY"] ++ blank ' ' :: (Atom.nameList d c.columns ++
      blank ' ' :: word "REFERENCES".toList :: blank ' ' ::
        Atom.name d (c.refTable.getD "") ::
          (Atom.refColumns d c.refColumns ++ Atom.refClauses c.refClauses))

/-- The words before the body of a constraint with a name. -/
def nameAtoms (d : Dialect) (c : Constraint) : List Atom :=
  match c.name with
  | none => []
  | some name => [word "CONSTRAINT".toList, blank ' ', Atom.name d name, blank ' ']

def atoms (d : Dialect) (c : Constraint) (expression : List Atom) : List Atom :=
  c.nameAtoms d ++ c.bodyAtoms d expression

theorem action_mem_of_mem_refClauses {c : Constraint} (hdelete : KnownAction c.onDelete)
    (hupdate : KnownAction c.onUpdate) : ∀ k ∈ c.refClauses, k.action ∈ referentialActions := by
  intro k hk
  rcases List.mem_append.1 hk with hk | hk
  · obtain ⟨action, haction, rfl⟩ := Option.map_eq_some_iff.1 (Option.mem_toList.1 hk)
    exact hdelete action haction
  · obtain ⟨action, haction, rfl⟩ := Option.map_eq_some_iff.1 (Option.mem_toList.1 hk)
    exact hupdate action haction

theorem foldl_refClauses (c : Constraint) (fk : Constraint) : c.refClauses.foldl RefClause.apply fk =
    { fk with
      onDelete := c.onDelete <|> fk.onDelete
      onUpdate := c.onUpdate <|> fk.onUpdate } := by
  unfold refClauses
  cases c.onDelete with
  | none =>
    cases c.onUpdate with
    | none => rfl
    | some update => rfl
  | some delete =>
    cases c.onUpdate with
    | none => rfl
    | some update => rfl

end Constraint

theorem reads_skipElement (h : Follows EndsElement more) : Reads d skipElement [] () more := by
  intro front
  have hfirst := h (width front)
  rw [List.nil_append]
  cases hplace : place (width front) more with
  | nil => exact congrArg (fun ts => Except.ok ((), ts)) hplace.symm
  | cons t ts =>
    rw [hplace] at hfirst
    have ht : endsElement t = true := hfirst t rfl
    rw [skipElement, elementRest, if_pos ⟨rfl, ht⟩]
    exact congrArg (fun ts => Except.ok ((), ts)) hplace.symm

theorem reads_skipIndexName (as more : List Atom) (h : ∃ rest, as = punct '(' :: rest) :
    Reads d skipIndexName [] () (as ++ more) := by
  obtain ⟨rest, rfl⟩ := h
  exact Reads.peekIsPunct fun _ => Reads.pure () _

theorem reads_constraintBody {c : Constraint} {expression : List Atom}
    (hc : PlainConstraint c expression) (h : Follows EndsElement more) :
    Reads d (constraintBody c.name) (c.bodyAtoms d expression) (some c) more := by
  have hnot : ∀ (ws : List String) (names : List String), "" ∉ ws →
      Follows (·.keyword ∉ ws) (Atom.nameList d names ++ more) :=
    fun ws names hws => follows_punct (fun _ => hws) _
  cases hc with
  | primaryKey name hne =>
    refine Reads.peekKeyword fun _ => Reads.bind (reads_expectWords ["PRIMARY", "KEY"] _)
      (Reads.blank ' ' ?_)
    refine Reads.bind_nil (reads_eatAny_none (hnot _ _ (by decide))).discard ?_
    refine Reads.bind_pure (reads_columnList d hne more) ?_
    exact Reads.bind_nil (reads_skipElement h) (Reads.pure _ more)
  | unique name hne =>
    refine Reads.peekKeyword fun _ => Reads.bind (l := [word "UNIQUE".toList])
      (reads_advance_word _ _) (Reads.blank ' ' ?_)
    refine Reads.bind_nil (reads_eatAny_none (hnot _ _ (by decide))).discard ?_
    refine Reads.bind_nil (reads_eatAny_none (hnot _ _ (by decide))).discard ?_
    refine Reads.bind_nil (reads_skipIndexName _ more ⟨_, rfl⟩) ?_
    refine Reads.bind_pure (reads_columnList d hne more) ?_
    exact Reads.bind_nil (reads_skipElement h) (Reads.pure _ more)
  | check name hexpression =>
    refine Reads.peekKeyword fun _ => Reads.bind (l := [word "CHECK".toList])
      (reads_advance_word _ _) (Reads.blank ' ' ?_)
    refine Reads.bind_pure (reads_parenthesized hexpression.balanced more) ?_
    rw [hexpression.trimmed]
    exact Reads.bind_nil (reads_skipElement h) (Reads.pure _ more)
  | @foreignKey name columns refTable refColumns onDelete onUpdate hne hdelete hupdate =>
    let fk : Constraint := { name, kind := .foreignKey, columns }
    let full : Constraint :=
      { fk with refTable := some refTable, refColumns, onDelete, onUpdate }
    have hks := Constraint.action_mem_of_mem_refClauses (c := full) hdelete hupdate
    have hread := reads_references (d := d) refTable refColumns hks fk rfl h
    rw [Constraint.foldl_refClauses] at hread
    have hfull : ({ fk with
        refTable := some refTable, refColumns
        onDelete := full.onDelete <|> fk.onDelete
        onUpdate := full.onUpdate <|> fk.onUpdate } : Constraint) = full := by
      simp [full, fk]
    refine Reads.peekKeyword fun _ => Reads.bind (reads_expectWords ["FOREIGN", "KEY"] _)
      (Reads.blank ' ' ?_)
    refine Reads.bind_nil (reads_skipIndexName _ _ ⟨_, rfl⟩) ?_
    refine Reads.bind (reads_columnList d hne _) (Reads.blank ' ' ?_)
    refine Reads.bind (l := spell ["REFERENCES"]) (reads_expectWords _ _) (Reads.blank ' ' ?_)
    refine Reads.bind_pure (hfull ▸ hread) ?_
    exact Reads.bind_nil (reads_skipElement h) (Reads.pure _ more)

theorem follows_bodyAtoms {P : Token → Prop} (c : Constraint) (expression : List Atom)
    (h : ∀ w ∈ ["PRIMARY", "FOREIGN", "UNIQUE", "CHECK"], ∀ n, P ⟨.word, w.toList, n⟩)
    (as : List Atom) : Follows P (c.bodyAtoms d expression ++ as) := by
  simp only [List.forall_mem_cons] at h
  obtain ⟨hprimary, hforeign, hunique, hcheck, -⟩ := h
  unfold Constraint.bodyAtoms
  cases c.kind with
  | primaryKey => exact follows_word hprimary _
  | foreignKey => exact follows_word hforeign _
  | unique => exact follows_word hunique _
  | check => exact follows_word hcheck _

theorem reads_tableConstraint {c : Constraint} {expression : List Atom}
    (hc : PlainConstraint c expression) (h : Follows EndsElement more) :
    Reads d tableConstraint (c.atoms d expression) (some c) more := by
  have hbody := reads_constraintBody (d := d) hc h
  unfold Constraint.atoms Constraint.nameAtoms
  cases hname : c.name with
  | none =>
    have hnot : Follows (·.isWord "CONSTRAINT" = false) (c.bodyAtoms d expression ++ more) :=
      follows_bodyAtoms c expression (by
        simp only [List.forall_mem_cons]
        exact ⟨fun _ => rfl, fun _ => rfl, fun _ => rfl, fun _ => rfl, by simp⟩) more
    rw [hname] at hbody
    exact Reads.bind_nil (reads_eatWords_none hnot) hbody
  | some name =>
    rw [hname] at hbody
    refine Reads.bind (l := spell ["CONSTRAINT"])
      (r := blank ' ' :: Atom.name d name :: blank ' ' :: c.bodyAtoms d expression)
      (reads_eatWords _ _) (Reads.blank ' ' ?_)
    exact Reads.bind (l := [Atom.name d name]) ((reads_ident d name _).map some) (Reads.blank ' ' hbody)

end DdlBridge
