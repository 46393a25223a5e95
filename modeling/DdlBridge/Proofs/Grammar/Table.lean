import DdlBridge.Proofs.Grammar.Constraint

/-!
# Reading tables

The elements of a table are its columns and its constraints. Each adds itself to the table read so far
(`reads_tableElement`), so the definition gives the table that they make (`reads_tableDefinition`).
-/

namespace DdlBridge

open Text Atom Ddl DdlBridge.Parser DdlBridge.Grammar

variable {d : Dialect} {more : List Atom}

/-! ### Elements -/

/-- An element of a table: a column with its clauses, or a constraint with the atoms of its
expression. -/
inductive Element where
  | column (c : Column) (clauses : List ColumnClause)
  | constraint (c : Constraint) (expression : List Atom)

/-- The name of a column is none that starts an index. -/
def NamesColumn (d : Dialect) (name : String) : Prop :=
  PlainName name ∧ (d = .mysql → upper name.toList ∉ ["FULLTEXT".toList, "SPATIAL".toList])

/-- The name of a column that is read back: only without quotes does it matter what it is. -/
def ReadableColumn (d : Dialect) (name : String) : Prop :=
  needsQuoting name = false → NamesColumn d name

theorem NamesColumn.readable {name : String} (h : NamesColumn d name) : ReadableColumn d name :=
  fun _ => h

theorem ReadableColumn.name {name : String} (h : ReadableColumn d name) : Readable name :=
  fun hquoting => (h hquoting).1

namespace Element

def atoms (d : Dialect) : Element → List Atom
  | column c clauses => c.atoms d clauses
  | constraint c expression => c.atoms d expression

/-- The table with the element added. -/
def apply (t : Table) : Element → Table
  | column c _ => { t with columns := t.columns ++ [c] }
  | constraint c _ => { t with constraints := t.constraints ++ [c] }

/-- The element is read as it is. -/
inductive Plain (d : Dialect) : Element → Prop where
  | column {c : Column} {clauses : List ColumnClause} (hname : ReadableColumn d c.name)
      (htype : PlainType c.dataType) (hparams : c.Parametrized) (hclauses : ∀ k ∈ clauses, k.Formed)
      (hfollow : ∀ k ∈ clauses.tail, k.Follows)
      (hcolumn : clauses.foldl ColumnClause.apply c.typed = c) : Plain d (column c clauses)
  | constraint {c : Constraint} {expression : List Atom} (h : PlainConstraint c expression) :
      Plain d (constraint c expression)

/-- The table has no column of the element's name. -/
def IsNew (t : Table) : Element → Prop
  | column c _ => t.findColumn c.name = none
  | constraint _ _ => True

end Element

theorem Parser.Reads.source {β : Type} {f : Source → Parser β} {as : List Atom} {b : β}
    (h : ∀ text, Reads d (f ⟨text, d⟩) as b more) : Reads d (source >>= f) as b more :=
  fun front => h _ front

theorem reads_atConstraint_true (c : Constraint) (expression : List Atom) (more : List Atom) :
    Reads d atConstraint [] true (c.atoms d expression ++ more) := by
  refine Reads.source fun _ => ?_
  unfold Constraint.atoms Constraint.nameAtoms
  cases c.name with
  | some name => exact Reads.peekKeyword fun _ => Reads.pure true _
  | none =>
    unfold Constraint.bodyAtoms
    cases c.kind with
    | primaryKey => exact Reads.peekKeyword fun _ => fun _ => rfl
    | foreignKey | unique | check => exact Reads.peekKeyword fun _ => Reads.pure true _

theorem reads_atConstraint_false {name : String} (h : ReadableColumn d name) (as : List Atom) :
    Reads d atConstraint [] false (Atom.name d name :: as) := by
  refine Reads.source fun text => Reads.peekKeyword fun n => ?_
  have hreserved : ∀ w ∈ ["CONSTRAINT", "FOREIGN", "CHECK", "UNIQUE", "PRIMARY", "KEY", "INDEX"],
      w ≠ "" ∧ (∀ c ∈ w.toList, c.toNat < 128) ∧
        String.ofList (w.toList.map Char.toLower) ∈ reservedWords := by decide +kernel
  have hkeyword : ∀ w ∈ ["CONSTRAINT", "FOREIGN", "CHECK", "UNIQUE", "PRIMARY", "KEY", "INDEX"],
      ((place n (Atom.name d name :: as)).head?.map (·.keyword)).getD "" ≠ w := by
    intro w hw
    obtain ⟨hne, hascii, hmem⟩ := hreserved w hw
    rw [place_name]
    exact keyword_name h.name hne hascii hmem n
  have hindex : d = .mysql → ∀ w ∈ ["FULLTEXT", "SPATIAL"],
      ((place n (Atom.name d name :: as)).head?.map (·.keyword)).getD "" ≠ w := by
    intro hd w hw
    simp only [List.mem_cons, List.not_mem_nil, or_false] at hw
    rw [place_name]
    refine keyword_name_ne (d := d) ?_ (fun hquoting heq => ?_) n
    · rcases hw with rfl | rfl <;> decide
    · have hnot := (h hquoting).2 hd
      simp only [List.mem_cons, List.not_mem_nil, or_false, not_or] at hnot
      rcases hw with rfl | rfl
      · exact hnot.1 heq
      · exact hnot.2 heq
  simp only [List.mem_cons, List.not_mem_nil, or_false, forall_eq_or_imp, forall_eq] at hkeyword hindex
  rw [List.nil_append]
  generalize ((place n (Atom.name d name :: as)).head?.map (·.keyword)).getD "" = w at hkeyword hindex
  obtain ⟨hconstraint, hforeign, hcheck, hunique, hprimary, hkey, hindex'⟩ := hkeyword
  split
  case h_5 => exact absurd rfl hprimary
  case h_6 =>
    have hmysql : (d == .mysql) = false := beq_eq_false_iff_ne.2 fun hd => (hindex hd).1 rfl
    rw [hmysql]
    exact Reads.pure false _
  case h_7 =>
    have hmysql : (d == .mysql) = false := beq_eq_false_iff_ne.2 fun hd => (hindex hd).2 rfl
    rw [hmysql]
    exact Reads.pure false _
  case h_10 => exact Reads.pure false _
  all_goals contradiction

theorem reads_tableElement {e : Element} (he : e.Plain d) {t : Table} (hnew : e.IsNew t)
    (h : Follows EndsElement more) : Reads d (tableElement t) (e.atoms d) (e.apply t) more := by
  cases he with
  | @column c clauses hname htype hparams hclauses hfollow hcolumn =>
    refine Reads.bind_nil (reads_atConstraint_false hname _) (Reads.tokens fun n => ?_)
    have hread := reads_columnDefinition (d := d) htype hparams hclauses hfollow h
    rw [hcolumn] at hread
    refine Reads.bind_pure hread ?_
    have hnone : t.findColumn c.name = none := hnew
    dsimp only
    rw [hnone, List.append_nil]
    exact Reads.pure _ more
  | @constraint c expression hc =>
    refine Reads.bind_nil (reads_atConstraint_true c expression more) ?_
    exact Reads.bind_pure (reads_tableConstraint hc h) (Reads.pure _ more)

/-! ### Rows of elements -/

/-- The start of the line of an element. -/
def Atom.indent : List Atom := blank '\n' :: List.replicate 4 (blank ' ')

theorem Parser.Reads.indent {α : Type} {p : Parser α} {as : List Atom} {a : α}
    (h : Reads d p as a more) : Reads d p (Atom.indent ++ as) a more :=
  (((h.blank ' ').blank ' ').blank ' ').blank ' ' |>.blank '\n'

/-- An element on the line behind another one. -/
def Element.nextAtoms (d : Dialect) (e : Element) : List Atom :=
  punct ',' :: (Atom.indent ++ e.atoms d)

/-- No element names a column that one before it, or the table, has. -/
def AllNew (t : Table) : List Element → Prop
  | [] => True
  | e :: es => e.IsNew t ∧ AllNew (e.apply t) es

theorem endsElement_nextAtoms {es : List Element} (h : Follows EndsElement more) :
    Follows EndsElement (es.flatMap (Element.nextAtoms d) ++ more) := by
  cases es with
  | nil => exact h
  | cons e es => exact follows_punct (fun _ => rfl) _

theorem reads_tableElements {es : List Element} (hes : ∀ e ∈ es, e.Plain d) {t : Table}
    (hnew : AllNew t es) (h : Follows EndsElement more) (hcomma : Follows (·.isPunct ',' = false) more) :
    Reads d (many (fun table => do
      if ← eatPunct ',' then some <$> tableElement table else return none) t)
      (es.flatMap (Element.nextAtoms d)) (es.foldl Element.apply t) more := by
  induction es generalizing t with
  | nil => exact Reads.many_nil (Reads.bind_nil (reads_eatPunct_none hcomma) (Reads.pure none more))
  | cons e es ih =>
    rw [List.forall_mem_cons] at hes
    have hstep : Reads d (do
        if ← eatPunct ',' then some <$> tableElement t else return none) (Element.nextAtoms d e)
        (some (e.apply t)) (es.flatMap (Element.nextAtoms d) ++ more) := by
      refine Reads.bind (l := [punct ',']) (reads_eatPunct ',' _) (Reads.indent ?_)
      exact (reads_tableElement hes.1 hnew.1 (endsElement_nextAtoms h)).map some
    exact Reads.many_cons hstep (List.cons_ne_nil _ _) (ih hes.2 hnew.2)

/-- The elements of a table between its parentheses. -/
def Atom.elements (d : Dialect) : List Element → List Atom
  | [] => []
  | e :: es => Atom.indent ++ e.atoms d ++ es.flatMap (Element.nextAtoms d)

def Atom.table (d : Dialect) (name : String) (es : List Element) : List Atom :=
  word "TABLE".toList :: blank ' ' :: Atom.name d name :: blank ' ' :: punct '(' ::
    (Atom.elements d es ++ [blank '\n', punct ')'])

/-- The table that elements make. -/
def tableOf (name : String) (es : List Element) : Table := es.foldl Element.apply { name }

theorem reads_ifNotExists (d : Dialect) (name : String) {a : Atom} {kind : TokenKind}
    (ha : a.kind? = some kind) (hnot : ∀ n, (⟨kind, a.text, n⟩ : Token).isWord "NOT" = false)
    (more : List Atom) : Reads d (eatWords ["IF", "NOT", "EXISTS"]) [] false
      (Atom.name d name :: blank ' ' :: a :: more) := by
  intro front
  have hstarts : Parser.startsWith ["IF", "NOT", "EXISTS"]
      (place (width front) (Atom.name d name :: blank ' ' :: a :: more)) = false := by
    rw [place_name, place_blank, place_of_kind ha]
    simp only [Parser.startsWith, hnot, Bool.false_and, Bool.and_false]
  rw [eatWords, List.nil_append, hstarts]
  rfl

theorem reads_tableDefinition {name : String} {es : List Element} (hne : es ≠ [])
    (hes : ∀ e ∈ es, e.Plain d) (hnew : AllNew { name } es)
    (hcolumns : (tableOf name es).columns ≠ []) :
    Reads d tableDefinition (Atom.table d name es) (some (tableOf name es)) [] := by
  obtain ⟨e, es, rfl⟩ := List.exists_cons_of_ne_nil hne
  rw [List.forall_mem_cons] at hes
  have hend : Follows EndsElement (blank '\n' :: punct ')' :: []) :=
    Follows.blank (follows_punct (fun _ => rfl) _) _
  have hcomma : Follows (·.isPunct ',' = false) (blank '\n' :: punct ')' :: []) :=
    Follows.blank (follows_punct (fun _ => rfl) _) _
  have hnot : (tableOf name (e :: es)).columns.isEmpty = false := by
    rw [← Bool.not_eq_true, List.isEmpty_iff]
    exact hcolumns
  refine Reads.bind (l := spell ["TABLE"]) (reads_expectWords _ _) (Reads.blank ' ' ?_)
  refine Reads.bind_nil (reads_ifNotExists d name rfl (fun _ => rfl) _).discard ?_
  refine Reads.bind (l := [Atom.name d name])
    (reads_objectName d name (Follows.blank (follows_punct (fun _ => rfl) _) ' ')) (Reads.blank ' ' ?_)
  refine Reads.bind (l := [punct '(']) (r := Atom.elements d (e :: es) ++ [blank '\n', punct ')'])
    (reads_eatPunct '(' _) ?_
  rw [Atom.elements, List.append_assoc, List.append_assoc]
  refine Reads.indent ?_
  refine Reads.bind (reads_tableElement hes.1 hnew.1 ?_) ?_
  · rw [List.append_assoc]
    exact endsElement_nextAtoms hend
  refine Reads.bind (reads_tableElements hes.2 hnew.2 hend hcomma) (Reads.blank '\n' ?_)
  refine Reads.bind_pure (reads_expectPunct ')' []) ?_
  have hoption : Reads d (many (tableOption name) ()) [] () [] :=
    Reads.many_nil (Reads.peek fun _ => Reads.pure none [])
  have htable : es.foldl Element.apply (Element.apply { name } e) = tableOf name (e :: es) := rfl
  rw [htable, hnot]
  exact Reads.bind_nil hoption.discard (Reads.pure _ [])

end DdlBridge
