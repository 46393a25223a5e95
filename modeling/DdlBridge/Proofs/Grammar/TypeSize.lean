import DdlBridge.Proofs.Grammar.TypeReading

/-!
# Sizes of types

The numbers of a column type are printed behind all of its text (`toList_fullType`). Behind the name
alone they are read back as they are printed (`toList_fullType_withParameters`).
-/

namespace DdlBridge

open Text Atom Grammar

/-- The numbers that a type is printed with. -/
def Column.sizes (c : Column) : List UInt32 :=
  match c.length, c.precision, c.scale with
  | some n, _, _ => [n]
  | none, some p, some s => [p, s]
  | none, some p, none => [p]
  | none, none, _ => []

theorem Column.sizes_eq_nil_iff (c : Column) :
    c.sizes = [] ↔ c.length = none ∧ c.precision = none := by
  obtain ⟨name, dataType, length, precision, scale⟩ := c
  cases length with
  | some n => simp [sizes]
  | none =>
    cases precision with
    | none => simp [sizes]
    | some p => cases scale <;> simp [sizes]

theorem Column.Parametrized.sizes_eq {c : Column} (h : c.Parametrized) : c.sizes = c.parameters := by
  obtain ⟨name, dataType, length, precision, scale⟩ := c
  unfold Column.Parametrized at h
  split at h
  case isTrue =>
    obtain ⟨rfl, hscale⟩ := h
    cases precision with
    | none =>
      cases scale with
      | none => rfl
      | some s => exact absurd (hscale rfl) (by simp)
    | some p => cases scale <;> rfl
  case isFalse =>
    obtain ⟨rfl, rfl⟩ := h
    cases length <;> rfl

theorem Column.Parametrized.scale_eq_none {c : Column} (h : c.Parametrized)
    (hprecision : c.precision = none) : c.scale = none := by
  unfold Column.Parametrized at h
  split at h
  case isTrue =>
    rw [hprecision] at h
    cases hscale : c.scale with
    | none => rfl
    | some s => exact absurd (h.2 (hscale ▸ rfl)) (by simp)
  case isFalse => exact h.2

/-! ### Numbers as text -/

theorem toList_fullType (c : Column) :
    c.fullType.toList = c.dataType.toList ++ textOf (Atom.parameters c.sizes) := by
  obtain ⟨name, dataType, length, precision, scale⟩ := c
  cases length with
  | some n => exact String.toList_append.trans (congrArg (_ ++ ·) (textOf_parameters_one n).symm)
  | none =>
    cases precision with
    | none => exact (List.append_nil _).symm
    | some p =>
      cases scale with
      | none => exact String.toList_append.trans (congrArg (_ ++ ·) (textOf_parameters_one p).symm)
      | some s => exact String.toList_append.trans (congrArg (_ ++ ·) (textOf_parameters_two p s).symm)

/-- A type without numbers is printed as it is. -/
theorem fullType_eq_iff (c : Column) : c.fullType = c.dataType ↔ c.sizes = [] := by
  rw [← String.toList_inj, toList_fullType]
  by_cases hnil : c.sizes = []
  · rw [hnil]
    exact iff_of_true (List.append_nil _) rfl
  · refine iff_of_false (fun heq => ?_) hnil
    rw [textOf_parameters hnil, List.append_right_eq_self] at heq
    exact absurd heq (by simp)

/-! ### Numbers read back -/

/-- A column whose type has no numbers yet. -/
structure Column.Bare (c : Column) : Prop where
  length : c.length = none
  precision : c.precision = none
  scale : c.scale = none

/-- What a parameter text makes of a column: numbers, or a text of its type. -/
inductive ParameterCase (c : Column) (text : List Char) : Prop where
  | precision (n : UInt32) (hread : (Text.splitAt (· == ',') text).mapM typeParameter? = some [n])
      (hnumeric : c.dataType ∈ numericTypes)
      (heq : withParameters c text = { c with precision := some n })
  | length (n : UInt32) (hread : (Text.splitAt (· == ',') text).mapM typeParameter? = some [n])
      (hnumeric : c.dataType ∉ numericTypes)
      (heq : withParameters c text = { c with length := some n })
  | scaled (p s : UInt32) (hread : (Text.splitAt (· == ',') text).mapM typeParameter? = some [p, s])
      (hnumeric : c.dataType ∈ numericTypes)
      (heq : withParameters c text = { c with precision := some p, scale := some s })
  | kept (hone : ∀ n, (Text.splitAt (· == ',') text).mapM typeParameter? ≠ some [n])
      (htwo : ∀ p s, (Text.splitAt (· == ',') text).mapM typeParameter? = some [p, s] →
        c.dataType ∉ numericTypes)
      (heq : withParameters c text =
        { c with dataType := c.dataType ++ "(" ++ String.ofList (trim text) ++ ")" })

theorem parameterCase (c : Column) (text : List Char) : ParameterCase c text := by
  obtain ⟨made, heq⟩ : ∃ made, withParameters c text = made := ⟨_, rfl⟩
  have hmade := heq
  unfold withParameters at hmade
  dsimp only at hmade
  split at hmade
  case h_1 n hread hnumeric =>
    exact .precision n hread (of_decide_eq_true hnumeric) (heq.trans hmade.symm)
  case h_2 n hread hnumeric =>
    exact .length n hread (of_decide_eq_false hnumeric) (heq.trans hmade.symm)
  case h_3 p s hread hnumeric =>
    exact .scaled p s hread (of_decide_eq_true hnumeric) (heq.trans hmade.symm)
  case h_4 hone hother htwo =>
    refine .kept (fun n hread => ?_) (fun p s hread hnumeric => ?_) (heq.trans hmade.symm)
    · cases hnumeric : decide (c.dataType ∈ numericTypes) with
      | true => exact hone n hread hnumeric
      | false => exact hother n hread hnumeric
    · exact htwo p s hread (decide_eq_true hnumeric)

/-- Numbers with fields are those that the type takes; any other text stays in the type. -/
theorem withParameters_parametrized {c : Column} (h : c.Bare) (text : List Char) :
    ((withParameters c text).dataType = c.dataType ∧ (withParameters c text).Parametrized) ∨
      ((withParameters c text).sizes = [] ∧
        (withParameters c text).dataType = c.dataType ++ "(" ++ String.ofList (trim text) ++ ")") := by
  obtain ⟨hlength, hprecision, hscale⟩ := h
  cases parameterCase c text with
  | precision n _ hnumeric heq =>
    rw [heq, Column.Parametrized, if_pos hnumeric]
    exact .inl ⟨rfl, hlength, fun _ => rfl⟩
  | length n _ hnumeric heq =>
    rw [heq, Column.Parametrized, if_neg hnumeric]
    exact .inl ⟨rfl, hprecision, hscale⟩
  | scaled p s _ hnumeric heq =>
    rw [heq, Column.Parametrized, if_pos hnumeric]
    exact .inl ⟨rfl, hlength, fun _ => rfl⟩
  | kept _ _ heq =>
    rw [heq, Column.sizes_eq_nil_iff]
    exact .inr ⟨⟨hlength, hprecision⟩, rfl⟩

/-- Parameters make no serial type. -/
theorem not_serial_withParameters {c : Column} (h : c.dataType ∉ serialTypes) (text : List Char) :
    (withParameters c text).dataType ∉ serialTypes := by
  have hparen : ∀ s ∈ serialTypes, '(' ∉ s.toList := by decide
  cases parameterCase c text with
  | precision n _ _ heq | length n _ _ heq | scaled p s _ _ heq => rwa [heq]
  | kept _ _ heq =>
    rw [heq]
    refine fun hmem => hparen _ hmem ?_
    simp [String.toList_append]

/-- Numbers behind a type are printed as they are read, whether or not they have fields. -/
theorem toList_fullType_withParameters {c : Column} (h : c.Bare) {ns : List UInt32} (hne : ns ≠ []) :
    (withParameters c (textOf (numbers ns))).fullType.toList =
      c.dataType.toList ++ textOf (Atom.parameters ns) := by
  obtain ⟨hlength, hprecision, hscale⟩ := h
  have hread := mapM_typeParameter?_numbers hne
  rw [toList_fullType]
  cases parameterCase c (textOf (numbers ns)) with
  | precision n hn _ heq =>
    obtain rfl := Option.some.inj (hread.symm.trans hn)
    rw [heq, Column.sizes]
    simp only [hlength, hscale]
  | length n hn _ heq =>
    obtain rfl := Option.some.inj (hread.symm.trans hn)
    rw [heq, Column.sizes]
  | scaled p s hps _ heq =>
    obtain rfl := Option.some.inj (hread.symm.trans hps)
    rw [heq, Column.sizes]
    simp only [hlength]
  | kept _ _ heq =>
    have hnil : (withParameters c (textOf (numbers ns))).sizes = [] := by
      rw [heq, Column.sizes_eq_nil_iff]
      exact ⟨hlength, hprecision⟩
    have hempty : textOf (Atom.parameters []) = [] := rfl
    rw [hnil, heq, trim_numbers, textOf_parameters hne, hempty]
    simp [String.toList_append]

/-- Any other text is printed as it is kept. -/
theorem toList_fullType_of_kept {c : Column} (h : c.Bare) {text : List Char}
    (hkept : withParameters c text =
      { c with dataType := c.dataType ++ "(" ++ String.ofList (trim text) ++ ")" }) :
    (withParameters c text).fullType.toList = c.dataType.toList ++ '(' :: (trim text ++ [')']) := by
  have hnil : (withParameters c text).sizes = [] := by
    rw [hkept, Column.sizes_eq_nil_iff]
    exact ⟨h.length, h.precision⟩
  rw [(fullType_eq_iff _).2 hnil, hkept]
  simp [String.toList_append]

theorem withParameters_of_none {c : Column} {text : List Char}
    (h : (Text.splitAt (· == ',') text).mapM typeParameter? = none) : withParameters c text =
      { c with dataType := c.dataType ++ "(" ++ String.ofList (trim text) ++ ")" } := by
  cases parameterCase c text with
  | precision _ hread | length _ hread | scaled _ _ hread => exact absurd (h.symm.trans hread) (by simp)
  | kept _ _ heq => exact heq

theorem TypeText.column_of_suffix {t : TypeText} (hzone : t.zone = []) (hsuffix : t.suffix = [])
    (name : String) : t.column name = t.sized name := by
  have hsuffixed : (t.sized name).suffixed (upper (textOf t.suffix)) = t.sized name := by
    rw [hsuffix]
    exact Column.suffixed_nil _
  rw [column, hsuffixed, if_pos hzone]

/-! ### Declared types -/

/-- A table `t` with a column `x` of the type. -/
def declaration (type : String) (nullable : Bool) : String :=
  "CREATE TABLE t (x " ++ type ++ if nullable then ");" else " NOT NULL);"

/-- The declaration is read as one table with that column alone. -/
def Declares (d : Dialect) (type : String) (nullable : Bool) (c : Column) : Prop :=
  ∃ s t, parse d (declaration type nullable) = .ok s ∧ s.tables = [t] ∧ t.columns = [c]

variable {d : Dialect} {type : String} {nullable : Bool} {c : Column}

theorem toList_declaration (type : String) (nullable : Bool) :
    (declaration type nullable).toList = declarationText type.toList nullable ++ [';'] := by
  have htail : (if nullable then ");" else " NOT NULL);").toList =
      textOf (declarationTail nullable) ++ [';'] := by
    cases nullable with
    | true | false => decide +kernel
  have hparts : (declaration type nullable).toList = "CREATE TABLE t (x ".toList ++ type.toList ++
      (if nullable then ");" else " NOT NULL);").toList :=
    String.toList_append.trans (congrArg (· ++ _) String.toList_append)
  rw [hparts, htail, toList_declarationHead, declarationText, List.append_assoc, List.append_assoc,
    List.append_assoc]

theorem declares_of_parseScript
    (h : parseScript d (declarationText type.toList nullable ++ [';']) = .ok c.alone) :
    Declares d type nullable c := by
  have hparse : parse d (declaration type nullable) = .ok c.alone := by
    rw [parse, toList_declaration, h]
  exact ⟨c.alone, _, hparse, rfl, rfl⟩

/-- A declaration is read in one way. -/
theorem Declares.eq {x : Column} (hx : Declares d type nullable x) (hc : Declares d type nullable c) :
    x = c := by
  obtain ⟨s, t, hparse, ht, hx⟩ := hx
  obtain ⟨s', t', hparse', ht', hc⟩ := hc
  obtain rfl := Except.ok.inj (hparse.symm.trans hparse')
  obtain rfl := (List.cons.inj (ht.symm.trans ht')).1
  exact (List.cons.inj (hx.symm.trans hc)).1

theorem not_declares_of_error {e : Error}
    (h : parseScript d (declarationText type.toList nullable ++ [';']) = .error e) :
    ¬ Declares d type nullable c := by
  rintro ⟨s, t, hparse, -⟩
  rw [parse, toList_declaration, h] at hparse
  contradiction

/-- A type is declared as the column that it makes. -/
theorem declares_of_text {t : TypeText} (h : t.Formed) (hserial : (t.column "x").dataType ∉ serialTypes)
    (hlegible : t.Legible d nullable) (htype : type.toList = t.text) :
    Declares d type nullable { t.column "x" with nullable } :=
  declares_of_parseScript (htype ▸ parseScript_of_type h hserial hlegible)

end DdlBridge
