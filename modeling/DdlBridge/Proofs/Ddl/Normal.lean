import DdlBridge.Proofs.Ddl.Statements
import DdlBridge.Proofs.Ddl.Writing
import DdlBridge.Proofs.Token.Literal
import Mathlib.Tactic.Choose

/-!
# Normal form

Tables and sequences in normal form hold what DDL can say. The elements of such a table are written
line by line and make the table again (`exists_table`).
-/

namespace DdlBridge

open Text Atom Ddl

variable {d : Dialect}

/-! ### Columns -/

/-- SQLite writes every column that counts by itself as an `INTEGER` key. -/
structure Column.Normal (d : Dialect) (c : Column) : Prop where
  name : NamesColumn d c.name
  type : PlainType c.dataType
  parametrized : c.Parametrized
  literal : ∀ v ∈ c.defaultValue, IsLiteral d.rules v.toList
  counting : c.autoIncrement = true → c.defaultValue = none
  key : c.primaryKey = true → c.nullable = false ∧ c.unique = false
  countsAsKey : d = .sqlite → c.autoIncrement = true → c.CountsAsKey

theorem follows_of_mem_identityClauses {k : ColumnClause} (h : k ∈ identityClauses d) : k.Follows := by
  cases d with
  | sqlite => exact absurd h (by simp [identityClauses])
  | _ =>
    obtain rfl := List.mem_singleton.1 h
    trivial

theorem follows_of_mem_flagClauses {c : Column} {inlineKey : Bool} {k : ColumnClause}
    (h : k ∈ c.flagClauses inlineKey) : k.Follows := by
  have hall : ∀ nullable unique inlineKey : Bool, ∀ k ∈
      (if !nullable && !inlineKey then [ColumnClause.notNull] else []) ++
        (if inlineKey then [.primaryKey] else if unique then [.unique] else []), k.Follows := by
    intro nullable unique inlineKey
    cases nullable
    all_goals cases unique
    all_goals cases inlineKey
    all_goals simp [ColumnClause.Follows]
  exact hall c.nullable c.unique inlineKey k h

theorem mem_clauses {c : Column} {value : Option Atom} {inlineKey : Bool} {k : ColumnClause}
    (h : k ∈ c.clauses d value inlineKey) : k.Follows ∨ ∃ a ∈ value, k = .default a := by
  unfold Column.clauses at h
  split at h
  case isTrue =>
    simp only [List.mem_cons, List.not_mem_nil, or_false] at h
    rcases h with rfl | rfl
    all_goals exact .inl trivial
  case isFalse =>
    rcases List.mem_append.1 h with h | h
    · unfold Column.valueClauses at h
      split at h
      case isTrue => exact .inl (follows_of_mem_identityClauses h)
      case isFalse =>
        obtain ⟨a, ha, rfl⟩ := Option.map_eq_some_iff.1 (Option.mem_toList.1 h)
        exact .inr ⟨a, ha, rfl⟩
    · exact .inl (follows_of_mem_flagClauses h)

/-- Only the first clause may be a default value. -/
theorem follows_of_mem_tail {c : Column} {value : Option Atom} {inlineKey : Bool} {k : ColumnClause}
    (h : k ∈ (c.clauses d value inlineKey).tail) : k.Follows := by
  have hvalue : (c.valueClauses d value).length ≤ 1 := by
    unfold Column.valueClauses
    split
    case isTrue => cases d <;> simp [identityClauses]
    case isFalse => cases value <;> simp
  unfold Column.clauses at h
  split at h
  case isTrue =>
    obtain rfl := List.mem_singleton.1 h
    trivial
  case isFalse =>
    have hflags : ∀ k ∈ c.flagClauses inlineKey, k.Follows := fun _ => follows_of_mem_flagClauses
    refine hflags k ?_
    cases hcase : c.valueClauses d value with
    | nil =>
      rw [hcase] at h
      exact List.mem_of_mem_tail h
    | cons first rest =>
      rw [hcase, List.length_cons] at hvalue
      obtain rfl : rest = [] := List.length_eq_zero_iff.1 (by omega)
      rw [hcase] at h
      exact h

/-- The clauses say what the type of a column does not. -/
theorem foldl_clauses {c : Column} (hc : c.Normal d) {value : Option Atom}
    (hvalue : c.defaultValue = value.map fun a => String.ofList a.text) :
    (c.clauses d value c.primaryKey).foldl ColumnClause.apply c.typed = c := by
  obtain ⟨-, -, -, -, hcounting, hkey, hcountsAsKey⟩ := hc
  have hflags : (c.flagClauses c.primaryKey).foldl ColumnClause.apply
      { c.typed with autoIncrement := c.autoIncrement, defaultValue := c.defaultValue } = c := by
    obtain ⟨name, dataType, length, precision, scale, nullable, primaryKey, unique, autoIncrement,
      defaultValue⟩ := c
    cases primaryKey with
    | true =>
      obtain ⟨rfl, rfl⟩ : nullable = false ∧ unique = false := hkey rfl
      rfl
    | false =>
      cases nullable
      all_goals cases unique
      all_goals rfl
  unfold Column.clauses
  split
  case isTrue hsqlite =>
    obtain ⟨hd, hcounts, hprimary⟩ := hsqlite
    obtain ⟨hnullable, hunique⟩ := hkey hprimary
    have hnone := hcounting hcounts
    obtain ⟨name, dataType, length, precision, scale, nullable, primaryKey, unique, autoIncrement,
      defaultValue⟩ := c
    subst hcounts hprimary hnullable hunique hnone
    rfl
  case isFalse hnot =>
    have hvalues : (c.valueClauses d value).foldl ColumnClause.apply c.typed =
        { c.typed with autoIncrement := c.autoIncrement, defaultValue := c.defaultValue } := by
      unfold Column.valueClauses
      cases hcounts : c.autoIncrement with
      | true =>
        have hd : d ≠ .sqlite := fun hd => hnot ⟨hd, hcounts, (hcountsAsKey hd hcounts).1⟩
        rw [if_pos ⟨rfl, hd⟩, hcounting hcounts]
        cases d with
        | sqlite => exact absurd rfl hd
        | _ => rfl
      | false =>
        rw [if_neg (by simp), hvalue]
        cases value with
        | none => rfl
        | some a => rfl
    rw [List.foldl_append, hvalues, hflags]

/-- A column is an element of its table that is written as one line. -/
theorem exists_clauses {c : Column} (hc : c.Normal d) : ∃ ks, (Element.column c ks).Plain d ∧
    (Element.column c ks).Lined d ∧
    textOf (c.atoms d ks) = ((Style.of d).columnDef c c.primaryKey).toList := by
  obtain ⟨value, hvalue, hatom⟩ : ∃ value : Option Atom,
      c.defaultValue = (value.map fun a => String.ofList a.text) ∧
      ∀ a ∈ value, a.Formed d.rules ∧ (a.kind? = some .string ∨ a.kind? = some .number) := by
    cases hdefault : c.defaultValue with
    | none => exact ⟨none, rfl, by simp⟩
    | some v =>
      obtain ⟨a, ha, hformed, hkind⟩ := exists_atom_of_literal (hc.literal v hdefault)
      refine ⟨some a, by rw [Option.map_some, ha, String.ofList_toList], ?_⟩
      rintro b hb
      obtain rfl := Option.some.inj hb
      exact ⟨hformed, hkind⟩
  have hplain : ∀ k ∈ c.clauses d value c.primaryKey, k.Formed ∧ k.Literal d.rules := by
    intro k hk
    rcases mem_clauses hk with hfollows | ⟨a, ha, rfl⟩
    · cases k with
      | default => exact absurd hfollows id
      | _ => exact ⟨trivial, trivial⟩
    · obtain ⟨hformed, hkind⟩ := hatom a ha
      exact ⟨hkind, hformed, calm_of_kind hkind⟩
  refine ⟨c.clauses d value c.primaryKey, ?_, ⟨?_, long_column hc.name.1.readable hc.type _⟩, ?_⟩
  · exact .column hc.name.readable hc.type hc.parametrized (fun k hk => (hplain k hk).1)
      (fun k hk => follows_of_mem_tail hk) (foldl_clauses hc hvalue)
  · exact row_column hc.name.1.readable hc.type fun k hk => (hplain k hk).2
  · exact textOf_column hc.parametrized hvalue hc.countsAsKey

/-! ### Constraints -/

/-- The atoms are those of the expression of a `CHECK`, and none for any other constraint. -/
structure Constraint.NormalWith (d : Dialect) (c : Constraint) (expression : List Atom) : Prop where
  plain : PlainConstraint c expression
  names : c.PlainNames
  row : Row d.rules expression
  onUpdate : d = .oracle → c.onUpdate = none

def Constraint.Normal (d : Dialect) (c : Constraint) : Prop :=
  ∃ expression, c.NormalWith d expression

namespace Constraint.NormalWith

variable {c : Constraint} {expression : List Atom}

theorem lined (h : c.NormalWith d expression) : (Element.constraint c expression).Lined d :=
  ⟨row_constraint h.plain h.names h.row, long_constraint d c expression⟩

end Constraint.NormalWith

/-! ### Tables -/

structure Table.Normal (d : Dialect) (t : Table) : Prop where
  name : PlainName t.name
  nonempty : t.columns ≠ []
  columns : ∀ c ∈ t.columns, c.Normal d
  distinct : t.columns.Pairwise fun c c' => sameName c.name c'.name = false
  key : (t.columns.filter (·.primaryKey)).length ≤ 1
  keyless : (∃ c ∈ t.columns, c.primaryKey = true) → t.primaryKey = none
  constraints : ∀ c ∈ t.constraints, c.Normal d

/-- The elements of a table, with the clauses of each column and the expression of each constraint. -/
def Table.elements (t : Table) (clauses : Column → List ColumnClause)
    (expression : Constraint → List Atom) : List Element :=
  t.columns.map (fun c => .column c (clauses c)) ++
    t.constraints.map (fun c => .constraint c (expression c))

theorem allNew_elements (clauses : Column → List ColumnClause) (expression : Constraint → List Atom)
    (constraints : List Constraint) {columns : List Column} {t : Table}
    (h : (t.columns ++ columns).Pairwise fun c c' => sameName c.name c'.name = false) :
    AllNew t (columns.map (fun c => .column c (clauses c)) ++
      constraints.map (fun c => .constraint c (expression c))) := by
  induction columns generalizing t with
  | nil =>
    rw [List.map_nil, List.nil_append]
    clear h
    induction constraints generalizing t with
    | nil => trivial
    | cons c constraints ih => exact ⟨trivial, ih⟩
  | cons c columns ih =>
    refine ⟨?_, ih ?_⟩
    · refine List.find?_eq_none.2 fun b hb => ?_
      rw [(List.pairwise_append.1 h).2.2 b hb c List.mem_cons_self]
      simp
    · show ((t.columns ++ [c]) ++ columns).Pairwise _
      rw [List.append_assoc]
      exact h

theorem tableOf_elements (t : Table) (clauses : Column → List ColumnClause)
    (expression : Constraint → List Atom) : tableOf t.name (t.elements clauses expression) = t := by
  have hcolumns : ∀ (cs : List Column) (u : Table),
      (cs.map fun c => Element.column c (clauses c)).foldl Element.apply u =
        { u with columns := u.columns ++ cs } := by
    intro cs
    induction cs with
    | nil => exact fun u => by rw [List.append_nil]; rfl
    | cons c cs ih =>
      intro u
      rw [List.map_cons, List.foldl_cons, ih]
      simp [Element.apply]
  have hconstraints : ∀ (cs : List Constraint) (u : Table),
      (cs.map fun c => Element.constraint c (expression c)).foldl Element.apply u =
        { u with constraints := u.constraints ++ cs } := by
    intro cs
    induction cs with
    | nil => exact fun u => by rw [List.append_nil]; rfl
    | cons c cs ih =>
      intro u
      rw [List.map_cons, List.foldl_cons, ih]
      simp [Element.apply]
  rw [tableOf, Table.elements, List.foldl_append, hcolumns, hconstraints]
  rfl

/-- The key column of a table in normal form carries the key itself. -/
theorem tableLines_of_normal {t : Table} (ht : t.Normal d) : (Style.of d).tableLines t =
    t.columns.map (fun c => (Style.of d).columnDef c c.primaryKey) ++
      t.constraints.map (Style.of d).constraintDef := by
  have hinline : ∀ c ∈ t.columns, ((t.columns.filter (·.primaryKey)).length == 1 &&
      t.primaryKey.isNone && c.primaryKey) = c.primaryKey := by
    intro c hc
    cases hkey : c.primaryKey with
    | false => rw [Bool.and_false]
    | true =>
      have hmem : c ∈ t.columns.filter (·.primaryKey) := List.mem_filter.2 ⟨hc, hkey⟩
      have hpos := List.length_pos_of_mem hmem
      have hone : (t.columns.filter (·.primaryKey)).length = 1 := by
        have hle := ht.key
        omega
      rw [hone, ht.keyless ⟨c, hc, hkey⟩]
      rfl
  have hcolumns : t.columns.map (fun c => (Style.of d).columnDef c
      ((t.columns.filter (·.primaryKey)).length == 1 && t.primaryKey.isNone && c.primaryKey)) =
      t.columns.map (fun c => (Style.of d).columnDef c c.primaryKey) :=
    List.map_congr_left fun c hc => by rw [hinline c hc]
  have hnot : ¬ (1 < (t.columns.filter (·.primaryKey)).length ∧ t.primaryKey.isNone = true) :=
    fun h => absurd ht.key (by omega)
  unfold Style.tableLines
  dsimp only
  rw [hcolumns, if_neg hnot, List.append_nil]

/-- A table in normal form is written as one statement that defines it. -/
theorem exists_table {t : Table} (ht : t.Normal d) : ∃ as, Defines d as { tables := [t] } ∧
    (Style.of d).createTable t = .ok (String.ofList (statementText as)) := by
  choose! clauses hclauses using fun c (hc : Column.Normal d c) => exists_clauses hc
  choose! expression hexpression using fun c (hc : Constraint.Normal d c) => hc
  have hcolumn := fun c hc => hclauses c (ht.columns c hc)
  have hconstraint := fun c hc => hexpression c (ht.constraints c hc)
  have helements : ∀ e ∈ t.elements clauses expression, e.Plain d ∧ e.Lined d := by
    intro e he
    rcases List.mem_append.1 he with he | he
    · obtain ⟨c, hc, rfl⟩ := List.mem_map.1 he
      exact ⟨(hcolumn c hc).1, (hcolumn c hc).2.1⟩
    · obtain ⟨c, hc, rfl⟩ := List.mem_map.1 he
      exact ⟨.constraint (hconstraint c hc).plain, (hconstraint c hc).lined⟩
  have hne : t.elements clauses expression ≠ [] := by
    simp [Table.elements, ht.nonempty]
  have hlines : (t.elements clauses expression).map (fun e => textOf (e.atoms d)) =
      ((Style.of d).tableLines t).map String.toList := by
    rw [tableLines_of_normal ht, Table.elements, List.map_append, List.map_append, List.map_map,
      List.map_map, List.map_map, List.map_map]
    refine congrArg₂ (· ++ ·) (List.map_congr_left fun c hc => (hcolumn c hc).2.2)
      (List.map_congr_left fun c hc => ?_)
    exact textOf_constraint (hconstraint c hc).plain (hconstraint c hc).onUpdate
  have htable := tableOf_elements t clauses expression
  have hscanned := scanned_table ht.name.readable hne fun e he => (helements e he).2
  refine ⟨Atom.table d t.name (t.elements clauses expression),
    ⟨hscanned, firm_table d t.name _, fun s hs => ?_⟩, ?_⟩
  · have hread := ofStatement_table hs hscanned.apart hne (fun e he => (helements e he).1)
      (allNew_elements clauses expression t.constraints (t := { name := t.name }) ht.distinct)
      (by rw [htable]; exact ht.nonempty)
    rwa [htable] at hread
  · rw [createTable_eq hne hlines ht.nonempty, Atom.textOf_append]
    rfl

end DdlBridge
