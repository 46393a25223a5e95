import DdlBridge.Ddl.Script
import DdlBridge.Proofs.Grammar.Definition

/-!
# DDL as atoms

The DDL of a table or a sequence is the text of atoms: those of its columns, constraints and clauses,
and the words and marks between them.
-/

namespace DdlBridge

open Text Atom Ddl DdlBridge.Grammar

variable {d : Dialect}

/-! ### Joined texts -/

theorem toList_joinWith (separator s : String) (ss : List String) :
    (joinWith separator (s :: ss)).toList =
      s.toList ++ ss.flatMap fun t => separator.toList ++ t.toList := by
  induction ss generalizing s with
  | nil => exact (List.append_nil _).symm
  | cons t ss ih =>
    rw [joinWith, String.toList_append, String.toList_append, ih, List.flatMap_cons,
      List.append_assoc, List.append_assoc]

theorem textOf_flatMap {ι : Type} (f : ι → List Atom) (xs : List ι) :
    textOf (xs.flatMap f) = xs.flatMap fun x => textOf (f x) := by
  rw [textOf, List.flatMap_assoc]
  rfl

theorem textOf_spell (ws : List String) : textOf (spell ws) = (joinWith " " ws).toList := by
  induction ws with
  | nil => rfl
  | cons w ws ih =>
    cases ws with
    | nil => exact textOf_singleton _
    | cons v ws =>
      rw [spell, textOf_cons, textOf_cons, ih, joinWith, String.toList_append, String.toList_append,
        List.append_assoc]
      rfl

theorem textOf_names (names : List String) :
    textOf (Atom.names d names) = ((Style.of d).nameList names).toList := by
  cases names with
  | nil => rfl
  | cons name names =>
    rw [Atom.names, textOf_cons, text_name, textOf_flatMap, Style.nameList, List.map_cons,
      toList_joinWith, List.flatMap_map]
    refine congrArg (fun f => _ ++ names.flatMap f) (funext fun name => ?_)
    rw [nextName, textOf_cons, textOf_cons, textOf_singleton, text_name]
    rfl

theorem textOf_nameList (names : List String) : textOf (Atom.nameList d names) =
    '(' :: ((Style.of d).nameList names).toList ++ [')'] := by
  rw [Atom.nameList, textOf_cons, textOf_append, textOf_names]
  rfl

/-! ### Columns -/

theorem toList_toString_uint32 (n : UInt32) : (toString n).toList = Nat.toDigits 10 n.toNat := by
  have htext : toString n = toString n.toNat := rfl
  rw [htext, ← text_ofNat, text_ofNat_eq]

theorem textOf_parameters {ns : List UInt32} (h : ns ≠ []) :
    textOf (Atom.parameters ns) = '(' :: (textOf (numbers ns) ++ [')']) := by
  rw [Atom.parameters, if_neg (by simpa using h), textOf_cons, textOf_append]
  rfl

theorem textOf_parameters_one (n : UInt32) : textOf (Atom.parameters [n]) = s!"({n})".toList := by
  rw [textOf_parameters (by simp), textOf_numbers_one]
  simp only [String.toList_append, toList_toString_uint32, List.append_assoc]
  rfl

theorem textOf_parameters_two (n m : UInt32) :
    textOf (Atom.parameters [n, m]) = s!"({n},{m})".toList := by
  rw [textOf_parameters (by simp), textOf_numbers_two]
  simp only [String.toList_append, toList_toString_uint32, List.append_assoc, List.cons_append]
  rfl

theorem textOf_typeAtoms {c : Column} (h : c.Parametrized) :
    textOf c.typeAtoms = c.fullType.toList := by
  obtain ⟨name, dataType, length, precision, scale⟩ := c
  unfold Column.Parametrized at h
  rw [Column.typeAtoms, textOf_cons]
  split at h
  case isTrue =>
    obtain ⟨rfl, hscale⟩ := h
    cases precision with
    | none =>
      cases scale with
      | none => exact List.append_nil _
      | some s => exact absurd (hscale rfl) (by simp)
    | some p =>
      cases scale with
      | none => exact (congrArg (_ ++ ·) (textOf_parameters_one p)).trans String.toList_append.symm
      | some s => exact (congrArg (_ ++ ·) (textOf_parameters_two p s)).trans String.toList_append.symm
  case isFalse =>
    obtain ⟨rfl, rfl⟩ := h
    cases length with
    | none => exact List.append_nil _
    | some n => exact (congrArg (_ ++ ·) (textOf_parameters_one n)).trans String.toList_append.symm

/-- The clause of a column that counts by itself. -/
def identityClauses : Dialect → List ColumnClause
  | .mysql => [.autoIncrement]
  | .sqlServer => [.identity]
  | .sqlite => []
  | .oracle | .postgres => [.generated]

/-- What a column counts by, or else its default value. -/
def Column.valueClauses (d : Dialect) (c : Column) (value : Option Atom) : List ColumnClause :=
  if c.autoIncrement ∧ d ≠ .sqlite then identityClauses d else (value.map .default).toList

def Column.flagClauses (c : Column) (inlineKey : Bool) : List ColumnClause :=
  (if !c.nullable && !inlineKey then [.notNull] else []) ++
  (if inlineKey then [.primaryKey] else if c.unique then [.unique] else [])

/-- The clauses of a column whose default value is the atom; with `inlineKey` it carries the primary
key of its table. -/
def Column.clauses (d : Dialect) (c : Column) (value : Option Atom) (inlineKey : Bool) :
    List ColumnClause :=
  if d = .sqlite ∧ c.autoIncrement ∧ inlineKey then [.primaryKey, .autoincrement]
  else c.valueClauses d value ++ c.flagClauses inlineKey

def ColumnClause.text : ColumnClause → String
  | default value => "DEFAULT " ++ String.ofList value.text
  | autoIncrement => "AUTO_INCREMENT"
  | autoincrement => "AUTOINCREMENT"
  | identity => "IDENTITY(1,1)"
  | generated => "GENERATED BY DEFAULT AS IDENTITY"
  | notNull => "NOT NULL"
  | primaryKey => "PRIMARY KEY"
  | unique => "UNIQUE"

theorem ColumnClause.textOf_atoms (k : ColumnClause) : textOf k.atoms = k.text.toList := by
  cases k with
  | default value =>
    have htext : (String.ofList value.text).toList = value.text := String.toList_ofList
    rw [ColumnClause.text, String.toList_append, htext]
    exact congrArg ("DEFAULT ".toList ++ ·) (textOf_singleton value)
  | identity => decide +kernel
  | _ => exact textOf_spell _

theorem textOf_clauses (ks : List ColumnClause) : textOf (Atom.clauses ks) =
    (ks.map ColumnClause.text).flatMap fun t => " ".toList ++ t.toList := by
  rw [Atom.clauses, textOf_flatMap, List.flatMap_map]
  refine congrArg ks.flatMap (funext fun k => ?_)
  rw [textOf_cons, k.textOf_atoms]
  rfl

theorem textOf_columnAtoms {c : Column} (h : c.Parametrized) (ks : List ColumnClause) :
    textOf (c.atoms d ks) = (joinWith " "
      ([(Style.of d).quote c.name, c.fullType] ++ ks.map ColumnClause.text)).toList := by
  rw [Column.atoms, textOf_cons, textOf_cons, textOf_append, textOf_typeAtoms h, textOf_clauses,
    text_name, List.cons_append, List.singleton_append, toList_joinWith, List.flatMap_cons]
  rfl

/-- A column that counts by itself in SQLite is an integer key. -/
def Column.CountsAsKey (c : Column) : Prop :=
  c.primaryKey = true ∧ c.dataType = "INTEGER" ∧ c.length = none

theorem fullType_of_countsAsKey {c : Column} (h : c.Parametrized) (hkey : c.CountsAsKey) :
    c.fullType = "INTEGER" := by
  obtain ⟨-, htype, hlength⟩ := hkey
  rw [Column.Parametrized, htype, if_neg (by decide)] at h
  rw [Column.fullType, hlength, h.1]
  exact htype

theorem text_identityClauses (d : Dialect) (hd : d ≠ .sqlite) :
    (identityClauses d).map ColumnClause.text = (Style.of d).identityClause.toList := by
  cases d with
  | sqlite => exact absurd rfl hd
  | _ => rfl

theorem text_clauses {c : Column} {value : Option Atom} {inlineKey : Bool}
    (hvalue : c.defaultValue = value.map fun a => String.ofList a.text)
    (hnot : ¬ (d = .sqlite ∧ c.autoIncrement = true ∧ inlineKey = true)) :
    (c.clauses d value inlineKey).map ColumnClause.text =
      (if c.autoIncrement = true ∧ d ≠ .sqlite then (Style.of d).identityClause.toList
        else Style.defaultClause c) ++ Style.columnFlags c inlineKey := by
  have hdefault : (value.map ColumnClause.default).toList.map ColumnClause.text =
      Style.defaultClause c := by
    rw [Style.defaultClause, hvalue]
    cases value with
    | none => rfl
    | some a => rfl
  have hflags : (c.flagClauses inlineKey).map ColumnClause.text = Style.columnFlags c inlineKey := by
    rw [Column.flagClauses, Style.columnFlags]
    cases c.nullable
    all_goals cases inlineKey
    all_goals cases c.unique
    all_goals rfl
  rw [Column.clauses, if_neg hnot, List.map_append, hflags, Column.valueClauses]
  refine congrArg (· ++ _) ?_
  split
  case isTrue h => exact text_identityClauses d h.2
  case isFalse => exact hdefault

theorem textOf_column {c : Column} {value : Option Atom} {inlineKey : Bool} (h : c.Parametrized)
    (hvalue : c.defaultValue = value.map fun a => String.ofList a.text)
    (hcounts : d = .sqlite → c.autoIncrement = true → c.CountsAsKey) :
    textOf (c.atoms d (c.clauses d value inlineKey)) =
      ((Style.of d).columnDef c inlineKey).toList := by
  rw [textOf_columnAtoms h, Style.columnDef]
  simp only [Style.of.injEq, ne_eq]
  split
  case isTrue hsqlite =>
    rw [fullType_of_countsAsKey h (hcounts hsqlite.1 hsqlite.2.1), Column.clauses, if_pos hsqlite]
    simp [joinWith, ColumnClause.text]
  case isFalse hnot => rw [text_clauses hvalue hnot, List.append_assoc]

/-! ### Constraints -/

theorem textOf_action {a : String} (ha : a ∈ referentialActions) :
    textOf (Atom.action a) = a.toList := by
  simp only [referentialActions, List.mem_cons, List.not_mem_nil, or_false] at ha
  obtain rfl | rfl | rfl | rfl | rfl := ha
  all_goals decide +kernel

theorem textOf_refColumns (names : List String) : textOf (Atom.refColumns d names) =
    (if names.isEmpty then "" else " (" ++ (Style.of d).nameList names ++ ")").toList := by
  unfold Atom.refColumns
  split
  case isTrue => rfl
  case isFalse =>
    rw [textOf_cons, textOf_nameList, String.toList_append, String.toList_append]
    rfl

theorem textOf_refClause {a : String} (ha : a ∈ referentialActions) (w : String) :
    textOf (blank ' ' :: (spell ["ON", w] ++ blank ' ' :: Atom.action a)) =
      (" ON " ++ w ++ " " ++ a).toList := by
  rw [textOf_cons, textOf_append, textOf_cons, textOf_action ha, textOf_spell]
  simp [joinWith, text]

theorem textOf_refClauses {c : Constraint} (hdelete : KnownAction c.onDelete)
    (hupdate : KnownAction c.onUpdate) (honly : d = .oracle → c.onUpdate = none) :
    textOf (Atom.refClauses c.refClauses) = ((c.onDelete.map (" ON DELETE " ++ ·)).getD "" ++
      (if (Style.of d).supportsOnUpdate then (c.onUpdate.map (" ON UPDATE " ++ ·)).getD ""
        else "")).toList := by
  have hfirst : textOf (Atom.refClauses (c.onDelete.map .onDelete).toList) =
      ((c.onDelete.map (" ON DELETE " ++ ·)).getD "").toList := by
    cases hcase : c.onDelete with
    | none => rfl
    | some a =>
      rw [hcase] at hdelete
      exact (congrArg textOf (List.append_nil _)).trans (textOf_refClause (hdelete a rfl) "DELETE")
  have hsecond : textOf (Atom.refClauses (c.onUpdate.map .onUpdate).toList) =
      (if (Style.of d).supportsOnUpdate then (c.onUpdate.map (" ON UPDATE " ++ ·)).getD ""
        else "").toList := by
    cases hcase : c.onUpdate with
    | none => rw [Option.map_none, Option.map_none, Option.getD_none, ite_self]; rfl
    | some a =>
      have hd : (Style.of d).supportsOnUpdate = true := by
        cases d with
        | oracle => exact absurd ((honly rfl).symm.trans hcase) (by simp)
        | _ => rfl
      rw [hcase] at hupdate
      rw [if_pos hd]
      exact (congrArg textOf (List.append_nil _)).trans (textOf_refClause (hupdate a rfl) "UPDATE")
  rw [Constraint.refClauses, Atom.refClauses, List.flatMap_append, textOf_append,
    String.toList_append, ← hfirst, ← hsecond]
  rfl

theorem textOf_nameAtoms (c : Constraint) : textOf (c.nameAtoms d) =
    ((c.name.map fun name => "CONSTRAINT " ++ (Style.of d).quote name ++ " ").getD "").toList := by
  unfold Constraint.nameAtoms
  cases c.name with
  | none => rfl
  | some name =>
    rw [textOf_cons, textOf_cons, textOf_cons, textOf_singleton, text_name]
    simp [text]

theorem textOf_foreignKey {columns refColumns : List String} {refTable : String} {c : Constraint}
    (hdelete : KnownAction c.onDelete) (hupdate : KnownAction c.onUpdate)
    (honly : d = .oracle → c.onUpdate = none) :
    textOf (spell ["FOREIGN", "KEY"] ++ blank ' ' :: (Atom.nameList d columns ++
        blank ' ' :: word "REFERENCES".toList :: blank ' ' :: Atom.name d refTable ::
          (Atom.refColumns d refColumns ++ Atom.refClauses c.refClauses))) =
      ("FOREIGN KEY (" ++ (Style.of d).nameList columns ++ ") REFERENCES " ++
        (Style.of d).quote refTable ++ (if refColumns.isEmpty then "" else
          " (" ++ (Style.of d).nameList refColumns ++ ")") ++
        ((c.onDelete.map (" ON DELETE " ++ ·)).getD "") ++
        (if (Style.of d).supportsOnUpdate then (c.onUpdate.map (" ON UPDATE " ++ ·)).getD ""
          else "")).toList := by
  have hclauses := textOf_refClauses hdelete hupdate honly
  rw [String.toList_append] at hclauses
  simp only [textOf_append, textOf_cons, textOf_nameList, textOf_refColumns, hclauses, text_name,
    textOf_spell]
  simp [joinWith, text]

theorem textOf_body {c : Constraint} {expression : List Atom} (hc : PlainConstraint c expression)
    (honly : d = .oracle → c.onUpdate = none) :
    textOf (c.bodyAtoms d expression) = ((Style.of d).constraintBody c).toList := by
  cases hc with
  | @primaryKey name columns =>
    show textOf (spell ["PRIMARY", "KEY"] ++ blank ' ' :: Atom.nameList d columns) =
      ("PRIMARY KEY" ++ " (" ++ (Style.of d).nameList columns ++ ")").toList
    rw [textOf_append, textOf_cons, textOf_nameList, textOf_spell]
    simp [joinWith, text]
  | @unique name columns =>
    show textOf (word "UNIQUE".toList :: blank ' ' :: Atom.nameList d columns) =
      ("UNIQUE" ++ " (" ++ (Style.of d).nameList columns ++ ")").toList
    rw [textOf_cons, textOf_cons, textOf_nameList]
    simp [text]
  | @check name expression =>
    show textOf (word "CHECK".toList :: blank ' ' :: punct '(' :: (expression ++ [punct ')'])) =
      ("CHECK (" ++ String.ofList (textOf expression) ++ ")").toList
    rw [textOf_cons, textOf_cons, textOf_cons, textOf_append, textOf_singleton]
    simp [text]
  | @foreignKey name columns refTable refColumns onDelete onUpdate _ hdelete hupdate =>
    let c : Constraint :=
      { name, kind := .foreignKey, columns, refTable := some refTable, refColumns, onDelete, onUpdate }
    exact textOf_foreignKey (c := c) hdelete hupdate honly

theorem textOf_constraint {c : Constraint} {expression : List Atom} (hc : PlainConstraint c expression)
    (honly : d = .oracle → c.onUpdate = none) :
    textOf (c.atoms d expression) = ((Style.of d).constraintDef c).toList := by
  rw [Constraint.atoms, textOf_append, textOf_nameAtoms, textOf_body hc honly, Style.constraintDef,
    String.toList_append]

/-! ### Tables and sequences -/

theorem textOf_elements {es : List Element} {lines : List String} (hne : es ≠ [])
    (h : es.map (fun e => textOf (e.atoms d)) = lines.map String.toList) :
    textOf (Atom.elements d es) = ("\n    " ++ joinWith ",\n    " lines).toList := by
  obtain ⟨e, es, rfl⟩ := List.exists_cons_of_ne_nil hne
  cases lines with
  | nil => exact absurd h (by simp)
  | cons line lines =>
    rw [List.map_cons, List.map_cons] at h
    obtain ⟨hline, hlines⟩ := List.cons.inj h
    have hrest : textOf (es.flatMap (Element.nextAtoms d)) =
        lines.flatMap fun t => ",\n    ".toList ++ t.toList := by
      have hnext : ∀ e : Element, textOf (Element.nextAtoms d e) =
          ",\n    ".toList ++ textOf (e.atoms d) := fun e => by
        rw [Element.nextAtoms, textOf_cons, textOf_append]
        rfl
      calc textOf (es.flatMap (Element.nextAtoms d))
          = (es.map fun e => textOf (e.atoms d)).flatMap fun cs => ",\n    ".toList ++ cs := by
            rw [textOf_flatMap, List.flatMap_map]
            exact congrArg es.flatMap (funext hnext)
        _ = lines.flatMap fun t => ",\n    ".toList ++ t.toList := by rw [hlines, List.flatMap_map]
    rw [Atom.elements, textOf_append, textOf_append, hline, hrest, String.toList_append,
      toList_joinWith, List.append_assoc]
    rfl

theorem createTable_eq {t : Table} {es : List Element} (hne : es ≠ [])
    (h : es.map (fun e => textOf (e.atoms d)) = ((Style.of d).tableLines t).map String.toList)
    (hcolumns : t.columns ≠ []) : (Style.of d).createTable t =
      .ok (String.ofList (textOf (Atom.create (Atom.table d t.name es) ++ [punct ';']))) := by
  have htext : textOf (Atom.create (Atom.table d t.name es) ++ [punct ';']) =
      ("CREATE TABLE " ++ (Style.of d).quote t.name ++ " (\n    " ++
        joinWith ",\n    " ((Style.of d).tableLines t) ++ "\n);").toList := by
    simp only [Atom.create, Atom.table, textOf_append, textOf_cons, textOf_elements hne h, text_name]
    simp [text, textOf]
  rw [Style.createTable, if_neg (by simpa using hcolumns), htext, String.ofList_toList]

theorem textOf_numberClause (ws : List String) (v : Int64) :
    textOf (blank ' ' :: (spell ws ++ blank ' ' :: ofInt v.toInt)) =
      (" " ++ joinWith " " ws ++ " " ++ toString v).toList := by
  rw [textOf_cons, textOf_append, textOf_cons, textOf_spell, textOf_ofInt]
  simp [text]
  rfl

theorem textOf_optionClause (o : Option Int64) (w : String) (k : Int64 → SequenceClause)
    (hk : ∀ v, (k v).atoms = spell [w] ++ blank ' ' :: ofInt v.toInt) :
    textOf (Atom.sequenceClauses (o.map k).toList) =
      ((o.map fun v => " " ++ w ++ " " ++ toString v).getD "").toList := by
  cases o with
  | none => rfl
  | some v =>
    have hatoms : Atom.sequenceClauses ((some v).map k).toList = blank ' ' :: (k v).atoms :=
      List.append_nil _
    rw [hatoms, hk, textOf_numberClause]
    rfl

theorem textOf_sequenceClauses_append (ks ks' : List SequenceClause) :
    textOf (Atom.sequenceClauses (ks ++ ks')) =
      textOf (Atom.sequenceClauses ks) ++ textOf (Atom.sequenceClauses ks') := by
  rw [Atom.sequenceClauses, List.flatMap_append, textOf_append]
  rfl

theorem textOf_sequenceClauses (s : Sequence) : textOf (Atom.sequenceClauses s.clauses) =
    (s!" START WITH {s.startValue} INCREMENT BY {s.incrementBy}" ++
      ((s.minValue.map fun v => s!" MINVALUE {v}").getD "") ++
      ((s.maxValue.map fun v => s!" MAXVALUE {v}").getD "") ++
      ((s.cache.map fun v => s!" CACHE {v}").getD "") ++
      (if s.cycle then " CYCLE" else "")).toList := by
  have hcycle : textOf (Atom.sequenceClauses (if s.cycle then [.cycle] else [])) =
      (if s.cycle then " CYCLE" else "").toList := by
    cases s.cycle with
    | false => rfl
    | true => decide +kernel
  have hfirst : textOf (Atom.sequenceClauses [.startWith s.startValue, .incrementBy s.incrementBy]) =
      s!" START WITH {s.startValue} INCREMENT BY {s.incrementBy}".toList := by
    have hstart := textOf_numberClause ["START", "WITH"] s.startValue
    have hincrement := textOf_numberClause ["INCREMENT", "BY"] s.incrementBy
    show textOf ((blank ' ' :: (spell ["START", "WITH"] ++ blank ' ' :: ofInt s.startValue.toInt)) ++
      ((blank ' ' :: (spell ["INCREMENT", "BY"] ++ blank ' ' :: ofInt s.incrementBy.toInt)) ++ [])) = _
    rw [List.append_nil, textOf_append, hstart, hincrement]
    simp only [String.toList_append, List.append_assoc]
    rfl
  simp only [Sequence.clauses, textOf_sequenceClauses_append, hfirst, hcycle,
    textOf_optionClause s.minValue "MINVALUE" .minValue fun _ => rfl,
    textOf_optionClause s.maxValue "MAXVALUE" .maxValue fun _ => rfl,
    textOf_optionClause s.cache "CACHE" .cache fun _ => rfl]
  simp only [String.toList_append]
  rfl

theorem textOf_sequence (s : Sequence) (clauses : String)
    (h : textOf (Atom.sequenceClauses s.clauses) = clauses.toList) :
    textOf (Atom.create (Atom.sequence d s) ++ [punct ';']) =
      ("CREATE SEQUENCE " ++ (Style.of d).quote s.name ++ clauses ++ ";").toList := by
  simp only [Atom.create, Atom.sequence, textOf_append, textOf_cons, h, text_name]
  simp [text, textOf]

theorem createSequence_eq (hd : d ≠ .mysql) (hd' : d ≠ .sqlite) (s : Sequence) :
    (Style.of d).createSequence s =
      String.ofList (textOf (Atom.create (Atom.sequence d s) ++ [punct ';'])) := by
  have hstatement : (Style.of d).createSequence s = (Style.of d).sequenceStatement s := by
    cases d with
    | mysql => exact absurd rfl hd
    | sqlite => exact absurd rfl hd'
    | _ => rfl
  have hassoc : ∀ a b c e f g : String,
      a ++ b ++ c ++ e ++ f ++ g = a ++ (b ++ c ++ e ++ f ++ g) := by
    simp only [String.append_assoc, implies_true]
  rw [hstatement, textOf_sequence s _ (textOf_sequenceClauses s), String.ofList_toList,
    ← hassoc]
  rfl

end DdlBridge
