import DdlBridge.Grammar.Script
import DdlBridge.Proofs.Grammar.Ensures
import DdlBridge.Proofs.Grammar.Script

/-!
# Parsed schemas are well formed

Every production of the grammar returns what is well formed, so every parsed schema is
(`wellFormed_of_parseScript`).
-/

namespace DdlBridge

/-! ### Well-formed entities -/

structure Column.WellFormed (c : Column) : Prop where
  /-- A length or a precision, not both. -/
  size : c.length = none ∨ c.precision = none
  scale : c.scale ≠ none → c.precision ≠ none

def refActions : List String := ["CASCADE", "RESTRICT", "NO ACTION", "SET NULL", "SET DEFAULT"]

structure Constraint.WellFormed (c : Constraint) : Prop where
  columns : c.kind ≠ .check → c.columns ≠ []
  target : c.kind = .foreignKey → c.refTable ≠ none
  actions : ∀ action, c.onDelete = some action ∨ c.onUpdate = some action → action ∈ refActions
  expression : c.kind = .check → c.expression ≠ none

/-- A table whose columns may still be missing. -/
structure Table.Coherent (t : Table) : Prop where
  columns : ∀ c ∈ t.columns, c.WellFormed
  distinct : t.columns.Pairwise fun c d => Text.sameName c.name d.name = false
  constraints : ∀ c ∈ t.constraints, c.WellFormed

theorem Table.Coherent.column {t : Table} (h : t.Coherent) {c : Column} (hc : c.WellFormed)
    (hnew : (t.findColumn c.name).isSome = false) {lifted : List Constraint}
    (hlifted : ∀ k ∈ lifted, k.WellFormed) :
    Table.Coherent { t with columns := t.columns ++ [c], constraints := t.constraints ++ lifted } where
  columns := List.forall_mem_append.2 ⟨h.columns, by simpa using hc⟩
  distinct := by
    rw [Table.findColumn, Option.isSome_eq_false_iff, Option.isNone_iff_eq_none,
      List.find?_eq_none] at hnew
    refine List.pairwise_append.2 ⟨h.distinct, List.pairwise_singleton _ _, fun a ha b hb => ?_⟩
    obtain rfl := List.mem_singleton.1 hb
    exact Bool.not_eq_true _ ▸ hnew a ha
  constraints := List.forall_mem_append.2 ⟨h.constraints, hlifted⟩

structure Table.WellFormed (t : Table) : Prop extends t.Coherent where
  nonempty : t.columns ≠ []

structure Trigger.WellFormed (t : Trigger) : Prop where
  events : t.events ≠ []
  body : t.body ≠ ""

structure Schema.WellFormed (s : Schema) : Prop where
  tables : ∀ t ∈ s.tables, t.WellFormed
  views : ∀ v ∈ s.views, v.definition ≠ ""
  triggers : ∀ t ∈ s.triggers, t.WellFormed

namespace Grammar

open DdlBridge.Parser

/-! ### Columns -/

/-- No parameters yet. -/
def Bare (c : Column) : Prop := c.length = none ∧ c.precision = none ∧ c.scale = none

theorem Bare.wellFormed {c : Column} (h : Bare c) : c.WellFormed :=
  ⟨.inl h.1, fun hne => absurd h.2.2 hne⟩

theorem Bare.withParameters {c : Column} (h : Bare c) (text : List Char) :
    (withParameters c text).WellFormed := by
  obtain ⟨hlength, hprecision, hscale⟩ := h
  unfold Grammar.withParameters
  dsimp only
  split
  case h_1 => exact ⟨.inl hlength, fun hne => absurd hscale hne⟩
  case h_2 => exact ⟨.inr hprecision, fun hne => absurd hscale hne⟩
  case h_3 => exact ⟨.inl hlength, fun _ => by simp⟩
  case h_4 => exact ⟨.inl hlength, fun hne => absurd hscale hne⟩

theorem ensures_timeZone {c : Column} (h : c.WellFormed) : Ensures (timeZone c) Column.WellFormed :=
  .seq fun _ => .ite
    (fun _ => .seq fun _ => .seq fun _ => .seq fun _ => .pure ⟨.inl rfl, h.scale⟩) fun _ => .pure h

theorem ensures_signedness {c : Column} (h : c.WellFormed) :
    Ensures (signedness c) fun next => ∀ c' ∈ next, c'.WellFormed := by
  refine .seq fun found => ?_
  split
  case h_1 => exact .pure (by rintro _ ⟨⟩; exact h)
  case h_2 => exact .pure (by rintro _ ⟨⟩; exact ⟨h.size, h.scale⟩)
  case h_3 => exact .pure (by simp)

theorem ensures_arrayBrackets {c : Column} (h : c.WellFormed) :
    Ensures (arrayBrackets c) fun next => ∀ c' ∈ next, c'.WellFormed := by
  have hnext : ∀ dataType, ∀ c' ∈ some { c with dataType }, c'.WellFormed := by
    rintro dataType _ ⟨⟩
    exact ⟨h.size, h.scale⟩
  exact .seq fun _ => .ite
    (fun _ => .seq fun _ => .ite (fun _ => .seq fun _ => .seq fun _ => .pure (hnext _))
      fun _ => .seq fun _ => .pure (hnext _))
    fun _ => .pure (by simp)

theorem wellFormed_withoutSerial {c : Column} (h : c.WellFormed) : (withoutSerial c).WellFormed := by
  unfold withoutSerial
  dsimp only
  split
  all_goals exact ⟨h.size, h.scale⟩

theorem ensures_columnType (name : String) : Ensures (columnType name) Column.WellFormed := by
  have hbare : ∀ dataType, Bare { name, dataType } := fun _ => ⟨rfl, rfl, rfl⟩
  have hrest : ∀ c : Column, c.WellFormed → Ensures (do
      let c ← timeZone c
      let c ← many signedness c
      let c ← many arrayBrackets c
      return withoutSerial c) Column.WellFormed := fun c hc =>
    (ensures_timeZone hc).bind fun _ hc =>
      (Ensures.many hc fun _ => ensures_signedness).bind fun _ hc =>
        (Ensures.many hc fun _ => ensures_arrayBrackets).bind fun _ hc =>
          .pure (wellFormed_withoutSerial hc)
  refine .seq fun first => ?_
  split
  case h_2 => exact .fail _
  case h_1 =>
    refine .seq fun _ => .seq fun words => .ite (fun _ => .seq fun _ => ?_) fun _ => ?_
    · exact .pure (hbare _).wellFormed
    · refine .seq fun _ => .ite (fun _ => ?_) fun _ => hrest _ (hbare _).wellFormed
      exact Ensures.bind (P := Column.WellFormed)
        (.map ((Ensures.trivial _).imp fun text _ => (hbare _).withParameters text)) hrest

/-! ### Constraints -/

theorem ensures_refAction : Ensures refAction (· ∈ refActions) := by
  refine .seq fun word => ?_
  split
  case h_1 | h_2 | h_3 => exact .seq fun _ => .pure (by decide)
  case h_4 =>
    refine .seq fun _ => (ensures_eatAny _).bind fun found hfound => ?_
    split
    case h_1 target =>
      have htarget := hfound target rfl
      simp only [List.mem_cons, List.not_mem_nil, or_false] at htarget
      rcases htarget with rfl | rfl
      · exact .pure (by decide)
      · exact .pure (by decide)
    case h_2 => exact .fail _
  case h_5 => exact .fail _

theorem ensures_refClause {fk : Constraint} (h : fk.WellFormed) :
    Ensures (refClause fk) fun next => ∀ fk' ∈ next, fk'.WellFormed := by
  have hsame : ∀ fk' ∈ some fk, fk'.WellFormed := by
    rintro _ ⟨⟩
    exact h
  refine .seq fun _ => .ite (fun _ => ensures_refAction.bind fun action haction => .pure ?_) fun _ => ?_
  · rintro _ ⟨⟩
    refine ⟨h.columns, h.target, fun a ha => ?_, h.expression⟩
    rcases ha with hdelete | hupdate
    · exact Option.some.inj hdelete ▸ haction
    · exact h.actions a (.inr hupdate)
  refine .seq fun _ => .ite (fun _ => ensures_refAction.bind fun action haction => .pure ?_) fun _ => ?_
  · rintro _ ⟨⟩
    refine ⟨h.columns, h.target, fun a ha => ?_, h.expression⟩
    rcases ha with hdelete | hupdate
    · exact h.actions a (.inl hdelete)
    · exact Option.some.inj hupdate ▸ haction
  refine .seq fun _ => .ite (fun _ => .seq fun _ => .pure hsame) fun _ => ?_
  refine .seq fun _ => .ite (fun _ => .pure hsame) fun _ => ?_
  refine .seq fun _ => .ite (fun _ => .pure hsame) fun _ => ?_
  exact .seq fun _ => .ite (fun _ => .seq fun _ => .pure hsame) fun _ => .pure (by simp)

/-- A foreign key of columns whose table is still to be read. -/
theorem ensures_references (name : Option String) {columns : List String} (h : columns ≠ []) :
    Ensures (references { name, kind := .foreignKey, columns }) Constraint.WellFormed := by
  have hfk : ∀ table refColumns, Constraint.WellFormed
      { name, kind := .foreignKey, columns, refTable := some table, refColumns } :=
    fun _ _ => ⟨fun _ => h, fun _ => by simp, fun _ ha => absurd ha (by simp), by simp⟩
  have hmany : ∀ fk : Constraint, fk.WellFormed → Ensures (many refClause fk) Constraint.WellFormed :=
    fun fk hfk => .many hfk fun _ => ensures_refClause
  exact .seq fun table => .seq fun _ => .ite (fun _ => .seq fun _ => hmany _ (hfk _ _))
    fun _ => hmany _ (hfk _ _)

/-! ### Columns with clauses -/

structure ColumnDraft.WellFormed (d : ColumnDraft) : Prop where
  column : d.column.WellFormed
  lifted : ∀ c ∈ d.lifted, c.WellFormed

theorem ColumnDraft.WellFormed.lift {d : ColumnDraft} (h : d.WellFormed) {c : Constraint}
    (hc : c.WellFormed) : (d.lift c).WellFormed := by
  refine ⟨h.column, fun c' hc' => ?_⟩
  rcases List.mem_append.1 hc' with hc' | hc'
  · exact h.lifted c' hc'
  · obtain rfl := List.mem_singleton.1 hc'
    exact ⟨hc.columns, hc.target, hc.actions, hc.expression⟩

theorem ensures_generated {c : Column} (h : c.WellFormed) : Ensures (generated c) Column.WellFormed := by
  have hrest : Ensures (do
      expectWord "AS"
      if ← eatWord "IDENTITY" then
        skipParenthesized
        return { c with autoIncrement := true }
      else
        discard parenthesized
        discard (eatAny ["STORED", "VIRTUAL"])
        return c) Column.WellFormed :=
    .seq fun _ => .seq fun _ => .ite (fun _ => .seq fun _ => .pure ⟨h.size, h.scale⟩)
      fun _ => .seq fun _ => .seq fun _ => .pure h
  exact .seq fun _ => .ite (fun _ => hrest)
    fun _ => .seq fun _ => .ite (fun _ => .seq fun _ => hrest) fun _ => hrest

theorem ensures_columnClause {d : ColumnDraft} (h : d.WellFormed) :
    Ensures (columnClause d) fun next => ∀ d' ∈ next, d'.WellFormed := by
  have hsome : ∀ d' : ColumnDraft, d'.WellFormed → ∀ d'' ∈ some d', d''.WellFormed := by
    rintro d' hd' _ ⟨⟩
    exact hd'
  have hcolumn : ∀ c : Column, c.WellFormed → ∀ d' ∈ some { d with column := c }, d'.WellFormed :=
    fun c hc => hsome _ ⟨hc, h.lifted⟩
  have hsize := h.column.size
  have hscale := h.column.scale
  refine .seq fun next => ?_
  split
  case h_2 => exact .pure (by simp)
  refine .ite (fun _ => .pure (by simp)) fun _ => ?_
  dsimp only
  split
  case h_1 => exact .seq fun _ => .pure (hcolumn _ ⟨hsize, hscale⟩)
  case h_2 => exact .seq fun _ => .pure (hcolumn _ ⟨hsize, hscale⟩)
  case h_3 => exact .seq fun _ => .seq fun _ => .pure (hcolumn _ ⟨hsize, hscale⟩)
  case h_4 => exact .seq fun _ => .seq fun _ => .pure (hcolumn _ ⟨hsize, hscale⟩)
  case h_5 => exact .seq fun _ => .seq fun _ => .pure (hcolumn _ ⟨hsize, hscale⟩)
  case h_6 =>
    refine .seq fun _ => .seq fun text => .pure (hsome _ (h.lift ⟨?_, ?_, ?_, ?_⟩))
    · simp
    · simp
    · simp
    · simp
  case h_7 =>
    exact .seq fun _ => (ensures_references none (List.cons_ne_nil _ _)).bind fun fk hfk =>
      .pure (hsome _ (h.lift hfk))
  case h_8 => exact .seq fun _ => .seq fun _ => .pure (hsome _ ⟨h.column, h.lifted⟩)
  case h_9 | h_10 => exact .seq fun _ => .pure (hcolumn _ ⟨hsize, hscale⟩)
  case h_11 => exact .seq fun _ => .seq fun _ => .pure (hcolumn _ ⟨hsize, hscale⟩)
  case h_12 =>
    exact .seq fun _ => (ensures_generated h.column).bind fun c hc => .pure (hcolumn c hc)
  case h_13 => exact .seq fun _ => .seq fun _ => .seq fun _ => .pure (hsome d h)
  case h_14 | h_15 | h_16 => exact .seq fun _ => .seq fun _ => .pure (hsome d h)
  case h_17 => exact .seq fun _ => .seq fun _ => .pure (hsome d h)
  case h_18 => exact .seq fun _ => .seq fun _ => .pure (hsome d h)

theorem ensures_columnDefinition : Ensures columnDefinition fun found =>
    found.1.WellFormed ∧ ∀ c ∈ found.2, c.WellFormed := by
  refine .seq fun name => (ensures_columnType name).bind fun c hc => ?_
  refine Ensures.bind (.many ⟨hc, by simp⟩ fun _ => ensures_columnClause) fun d hd => ?_
  exact .pure ⟨hd.column, hd.lifted⟩

/-! ### Tables -/

theorem ensures_constraintBody (name : Option String) :
    Ensures (constraintBody name) fun found => ∀ c ∈ found, c.WellFormed := by
  have hcolumns : ∀ kind columns, kind = .primaryKey ∨ kind = .unique → columns ≠ [] →
      ∀ c ∈ some { name, kind, columns : Constraint }, c.WellFormed := by
    rintro kind columns hkind hne _ ⟨⟩
    refine ⟨fun _ => hne, ?_, fun _ ha => absurd ha (by simp), ?_⟩
    · rcases hkind with rfl | rfl <;> simp
    · rcases hkind with rfl | rfl <;> simp
  refine .seq fun word => ?_
  split
  case h_1 =>
    exact .seq fun _ => .seq fun _ => ensures_columnList.bind fun columns hne => .seq fun _ =>
      .pure (hcolumns _ columns (.inl rfl) hne)
  case h_2 =>
    refine .seq fun _ => .seq fun _ => ensures_columnList.bind fun columns hne => .seq fun _ =>
      (ensures_references name hne).bind fun fk hfk => .seq fun _ => .pure ?_
    rintro _ ⟨⟩
    exact hfk
  case h_3 =>
    exact .seq fun _ => .seq fun _ => .seq fun _ => .seq fun _ =>
      ensures_columnList.bind fun columns hne => .seq fun _ =>
        .pure (hcolumns _ columns (.inr rfl) hne)
  case h_4 =>
    refine .seq fun _ => .seq fun _ => .seq fun _ => .pure ?_
    rintro _ ⟨⟩
    exact ⟨by simp, by simp, fun _ ha => absurd ha (by simp), by simp⟩
  case h_5 | h_6 | h_7 | h_8 => exact .seq fun _ => .pure (by simp)
  case h_9 => exact .fail _

theorem ensures_tableConstraint :
    Ensures tableConstraint fun found => ∀ c ∈ found, c.WellFormed :=
  .seq fun _ => .ite (fun _ => .seq fun _ => ensures_constraintBody _)
    fun _ => .seq fun _ => ensures_constraintBody _

theorem ensures_tableElement {t : Table} (h : t.Coherent) :
    Ensures (tableElement t) Table.Coherent := by
  refine .seq fun _ => .ite (fun _ => ?_) fun _ => ?_
  · refine ensures_tableConstraint.bind fun found hfound => .pure ⟨h.columns, h.distinct, ?_⟩
    refine List.forall_mem_append.2 ⟨h.constraints, fun c hc => hfound c (Option.mem_toList.1 hc)⟩
  · refine .seq fun start => ensures_columnDefinition.bind fun found hfound =>
      .ite (fun _ => ?_) fun hnew => ?_
    · exact fun _ _ _ _ h => absurd h (by simp)
    · exact .pure (h.column hfound.1 (Bool.not_eq_true _ ▸ hnew) hfound.2)

theorem ensures_tableDefinition : Ensures tableDefinition fun found => ∀ t ∈ found, t.WellFormed := by
  have hempty : ∀ name, Table.Coherent { name } :=
    fun _ => ⟨by simp, List.Pairwise.nil, by simp⟩
  refine .seq fun _ => .seq fun _ => .seq fun name => .seq fun _ => .ite (fun _ => ?_)
    fun _ => .pure (by simp)
  refine (ensures_tableElement (hempty name)).bind fun t ht => ?_
  refine Ensures.bind (P := Table.Coherent) ?_ fun t ht => .seq fun _ =>
    .ite (fun _ => ?_) fun hne => ?_
  · refine .many ht fun t ht => .seq fun _ => .ite (fun _ => ?_) fun _ => .pure (by simp)
    refine .map ((ensures_tableElement ht).imp fun t ht => ?_)
    rintro _ ⟨⟩
    exact ht
  · exact Ensures.bind (P := fun _ => False) (.fail _) fun _ h => h.elim
  · refine .seq fun _ => .pure ?_
    rintro _ ⟨⟩
    exact ⟨ht, by simpa using hne⟩

/-! ### Views and triggers -/

theorem ofList_ne_empty {cs : List Char} (h : cs.isEmpty = false) : String.ofList cs ≠ "" := by
  cases cs with
  | nil => contradiction
  | cons c cs => simp

theorem ensures_viewDefinition (orReplace : Bool) :
    Ensures (viewDefinition orReplace) fun v => v.definition ≠ "" := by
  refine .seq fun _ => .seq fun _ => .seq fun _ => .seq fun _ => .seq fun _ => .seq fun definition =>
    .ite (fun _ => ?_) fun hne => ?_
  · exact Ensures.bind (P := fun _ => False) (.fail _) fun _ h => h.elim
  · exact .pure (ofList_ne_empty (Bool.not_eq_true _ ▸ hne))

theorem ensures_triggerBody (trigger : String) : Ensures (triggerBody trigger) (· ≠ "") := by
  refine .seq fun body => .ite (fun _ => ?_) fun hne => ?_
  · exact Ensures.bind (P := fun _ => False) (.fail _) fun _ h => h.elim
  · exact .pure (ofList_ne_empty (Bool.not_eq_true _ ▸ hne))

theorem ensures_events : Ensures events (· ≠ []) := by
  refine .seq fun first => .many (by simp) fun found _ => .seq fun _ =>
    .ite (fun _ => .seq fun _ => ?_) fun _ => ?_
  · exact .pure (by simp)
  · exact .seq fun _ => .ite (fun _ => .seq fun _ => .pure (by simp)) fun _ => .pure (by simp)

theorem ensures_triggerDefinition : Ensures triggerDefinition Trigger.WellFormed := by
  refine .seq fun _ => .seq fun _ => .seq fun name => .seq fun _ => .ite (fun _ => ?_) fun _ => ?_
  · exact .seq fun _ => .seq fun _ => .seq fun _ => ensures_events.bind fun _ hevents =>
      .seq fun _ => .seq fun _ => (ensures_triggerBody name).bind fun _ hbody =>
        .pure ⟨hevents, hbody⟩
  · exact .seq fun _ => ensures_events.bind fun _ hevents => .seq fun _ => .seq fun _ =>
      .seq fun _ => (ensures_triggerBody name).bind fun _ hbody => .pure ⟨hevents, hbody⟩

/-! ### Scripts -/

theorem ensures_createStatement : Ensures createStatement Schema.WellFormed := by
  refine .seq fun _ => .seq fun found => ?_
  dsimp only
  split
  case h_1 =>
    exact ensures_tableDefinition.bind fun t? ht => .pure
      ⟨fun t hmem => ht t (Option.mem_toList.1 hmem), by simp, by simp⟩
  case h_2 => exact .seq fun _ => .pure ⟨by simp, by simp, by simp⟩
  case h_3 =>
    exact (ensures_viewDefinition _).bind fun v hv => .pure ⟨by simp, by simpa using hv, by simp⟩
  case h_4 =>
    exact ensures_triggerDefinition.bind fun t ht => .pure ⟨by simp, by simp, by simpa using ht⟩
  case h_5 => exact .pure ⟨by simp, by simp, by simp⟩

theorem ensures_statement : Ensures statement Schema.WellFormed := by
  have hempty : Schema.WellFormed {} := ⟨by simp, by simp, by simp⟩
  refine .seq fun next => ?_
  split
  case h_2 => exact .pure hempty
  exact .ite (fun _ => ensures_createStatement) fun _ => .ite (fun _ => .pure hempty) fun _ => .fail _

end Grammar

theorem Schema.WellFormed.append {s t : Schema} (hs : s.WellFormed) (ht : t.WellFormed) :
    (s.append t).WellFormed where
  tables := List.forall_mem_append.2 ⟨hs.tables, ht.tables⟩
  views := List.forall_mem_append.2 ⟨hs.views, ht.views⟩
  triggers := List.forall_mem_append.2 ⟨hs.triggers, ht.triggers⟩

theorem Grammar.wellFormed_of_ofStatement {d : Dialect} {s : Statement} {fragment : Schema}
    (h : ofStatement d s = .ok fragment) : fragment.WellFormed := by
  rw [ofStatement_eq] at h
  split at h
  case h_1 rest hread =>
    obtain rfl := Except.ok.inj h
    exact ensures_statement _ _ _ _ hread
  case h_2 => contradiction

/-- Every parsed schema is well formed. -/
theorem wellFormed_of_parseScript {d : Dialect} {script : List Char} {s : Schema}
    (h : parseScript d script = .ok s) : s.WellFormed :=
  forall_parseScript ⟨by simp, by simp, by simp⟩ (fun _ _ => Schema.WellFormed.append)
    (fun _ _ => Grammar.wellFormed_of_ofStatement) h

end DdlBridge
