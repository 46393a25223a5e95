import DdlBridge.Proofs.Ddl.RoundTrip
import DdlBridge.Proofs.Grammar.WellFormed
import DdlBridge.TypeTable.Basic

/-!
# Writing parsed schemas

Translating types leaves a well-formed schema writable, so what was parsed can be written in every
dialect unless it is empty (`parsed_wellFormed_and_writable`).
-/

namespace DdlBridge

open Ddl

/-- Writing fails only where there is nothing to write, or a table has no columns. -/
theorem generate_eq_error_iff {d : Dialect} {s : Schema} (h : ∀ t ∈ s.tables, t.columns ≠ []) :
    (∃ e, generate d s = .error e) ↔ s.isEmpty = true := by
  unfold generate Style.writeSchema
  cases hempty : s.isEmpty with
  | true => simp [throw, throwThe, MonadExceptOf.throw, bind, Except.bind]
  | false =>
    have htable : ∀ t ∈ s.tables, (Style.of d).createTable t =
        .ok (((Style.of d).createTable t).toOption.getD "") := by
      intro t ht
      rw [Style.createTable, if_neg (by simpa using h t ht)]
      rfl
    rw [mapM_of_ok htable]
    simp [bind, Except.bind, pure, Except.pure]

theorem isEmpty_translate (source target : Dialect) (s : Schema) :
    (s.translate source target).isEmpty = s.isEmpty := by
  unfold Schema.translate
  split
  case h_1 => rfl
  case h_2 => simp [Schema.isEmpty]

theorem columns_translate {source target : Dialect} {s : Schema}
    (h : ∀ t ∈ s.tables, t.columns ≠ []) : ∀ t ∈ (s.translate source target).tables,
      t.columns ≠ [] := by
  unfold Schema.translate
  split
  case h_1 => exact h
  case h_2 =>
    intro t ht
    obtain ⟨t, hmem, rfl⟩ := List.mem_map.1 ht
    simpa using h t hmem

/-- **Parsed schemas are well formed and writable.** In every dialect, writing fails if and only if
the schema holds no entity. -/
theorem parsed_wellFormed_and_writable {d : Dialect} {sql : String} {s : Schema}
    (h : parse d sql = .ok s) :
    s.WellFormed ∧ ∀ target : Dialect, (∃ e, generate target (s.translate d target) = .error e) ↔
      s.tables = [] ∧ s.sequences = [] ∧ s.views = [] ∧ s.triggers = [] := by
  have hformed := wellFormed_of_parseScript h
  refine ⟨hformed, fun target => ?_⟩
  rw [generate_eq_error_iff (columns_translate fun t ht => (hformed.tables t ht).nonempty),
    isEmpty_translate]
  simp [Schema.isEmpty, and_assoc]

/-- A table with a parametrized type and a foreign key that its column declares. -/
def invoices : Schema :=
  { tables := [
      { name := "invoices"
        columns := [
          { name := "amount", dataType := "NUMERIC", precision := some 10, scale := some 2 },
          { name := "payer", dataType := "INT" }]
        constraints := [
          { kind := .foreignKey, columns := ["payer"], refTable := some "people"
            onDelete := some "SET NULL" }] }] }

theorem parsed_wellFormed_and_writable_invoices :
    (invoices.WellFormed ∧ ∀ target,
      (∃ e, generate target (invoices.translate .postgres target) = .error e) ↔
        invoices.tables = [] ∧ invoices.sequences = [] ∧ invoices.views = [] ∧
          invoices.triggers = []) ∧
      ∃ e, generate .oracle (Schema.translate .mysql .oracle {}) = .error e := by
  have hinvoices : parse .postgres
      "CREATE TABLE invoices (amount NUMERIC(10, 2), payer INT REFERENCES people ON DELETE SET NULL);" =
        .ok invoices := by decide +kernel
  have hempty : parse .mysql "DROP TABLE invoices;" = .ok {} := by decide +kernel
  exact ⟨parsed_wellFormed_and_writable hinvoices,
    ((parsed_wellFormed_and_writable hempty).2 .oracle).2 ⟨rfl, rfl, rfl, rfl⟩⟩

end DdlBridge
