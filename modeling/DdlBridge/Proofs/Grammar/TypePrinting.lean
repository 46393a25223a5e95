import DdlBridge.Proofs.Grammar.IntervalType
import DdlBridge.Proofs.Grammar.ParsedType

/-!
# Printed types

A parsed type is printed as text that is read back as the same type, unless its numbers are printed
behind a suffix that they belong in front of (`exists_declares_fullType_iff`).
-/

namespace DdlBridge

open Text Atom Grammar

/-! ### Where numbers are printed -/

/-- What a type ends with if its numbers stand further to the front. -/
def typeSuffixes : List String := [" UNSIGNED", " ZEROFILL", "[]"]

/-- The numbers are printed behind a suffix. -/
def Column.Misplaced (c : Column) : Prop :=
  c.sizes ≠ [] ∧ ∃ suffix ∈ typeSuffixes, suffix.toList <:+ c.dataType.toList

instance (c : Column) : Decidable c.Misplaced := inferInstanceAs (Decidable (_ ∧ _))

/-- In the declaration, the text in the parentheses of the type stands as it does alone. -/
structure Column.Legible (d : Dialect) (c : Column) : Prop where
  parameters : ∀ name text suffix, c.dataType.toList = name ++ '(' :: (text ++ ')' :: suffix) →
    '(' ∉ name → ')' ∉ suffix → Closes d.rules text (suffix ++ " NOT NULL)".toList) ∧
      Statement.Unbroken d.rules ("CREATE TABLE t (x ".toList ++ (name ++ ['('])) text
  /-- No brackets where they are quotes. -/
  brackets : "[]".toList <:+ c.dataType.toList → d.rules.bracketQuotes = false

variable {d : Dialect} {a b c : Column} {t : TypeText}

namespace Column.SameType

theorem symm (h : SameType a b) : SameType b a :=
  ⟨h.dataType.symm, h.length.symm, h.precision.symm, h.scale.symm⟩

theorem sizes_eq (h : SameType a b) : a.sizes = b.sizes := by
  rw [sizes, sizes, h.length, h.precision, h.scale]

theorem fullType_eq (h : SameType a b) : a.fullType = b.fullType := by
  rw [← String.toList_inj, toList_fullType, toList_fullType, h.dataType, h.sizes_eq]

theorem misplaced_iff (h : SameType a b) : a.Misplaced ↔ b.Misplaced := by
  rw [Misplaced, Misplaced, h.dataType, h.sizes_eq]

theorem legible (h : SameType a b) (ha : a.Legible d) : b.Legible d :=
  ⟨h.dataType ▸ ha.parameters, h.dataType ▸ ha.brackets⟩

end Column.SameType

/-! ### The words of a type -/

namespace TypeText

theorem Upper.toList_words (h : t.Upper) : t.words.toList = textOf t.front := by
  rw [h.words_eq, toList_joinWords]
  rfl

theorem mem_words (h : t.Formed) (hupper : t.Upper) {b : Char} (hb : b ∈ t.words.toList) :
    b = ' ' ∨ Lexer.continuesWord b = true := by
  have hword : ∀ w ∈ t.first :: t.more, ∀ b ∈ w.toList, Lexer.continuesWord b = true :=
    fun w hw => continuesWord_of_isWord (h.words w hw)
  rw [hupper.toList_words, front, Atom.textOf_cons, textOf_nextWords] at hb
  rcases List.mem_append.1 hb with hb | hb
  · exact .inr (hword _ List.mem_cons_self b hb)
  · obtain ⟨w, hw, hb⟩ := List.mem_flatMap.1 hb
    rcases List.mem_cons.1 hb with rfl | hb
    · exact .inl rfl
    · exact .inr (hword w (List.mem_cons_of_mem _ hw) b hb)

theorem not_mem_words (h : t.Formed) (hupper : t.Upper) {b : Char} (hblank : b ≠ ' ')
    (hword : Lexer.continuesWord b = false) : b ∉ t.words.toList := fun hb =>
  (mem_words h hupper hb).elim hblank fun hcontinues => absurd (hword.symm.trans hcontinues) (by simp)

theorem mem_typeWords {v w : String} (h : continuesType v w = true) : w ∈ typeWords := by
  by_contra hnot
  exact absurd (h.symm.trans (continuesType_eq_false v hnot)) (by simp)

/-- The last word of a longer name is one that goes on with a name. -/
theorem mem_typeWords_of_more (h : t.Formed) (hupper : t.Upper) {ws : List String} {w : String}
    (hmore : t.more = ws ++ [w]) : w ∈ typeWords := by
  have hchain := h.chain
  rw [hmore, List.map_append, ← List.cons_append] at hchain
  obtain ⟨v, hv⟩ : ∃ v, v ∈ (upperWord t.first :: ws.map upperWord).getLast? :=
    ⟨_, List.getLast?_eq_getLast_of_ne_nil (List.cons_ne_nil _ _)⟩
  have hword := hupper.words w (by simp [hmore])
  have hcontinues := (List.isChain_append.1 hchain).2.2 v hv (upperWord w) rfl
  rw [hword] at hcontinues
  exact mem_typeWords hcontinues

theorem not_blank_suffix_words (h : t.Formed) (hupper : t.Upper) {v : String} (hv : v ∉ typeWords)
    (hblank : ' ' ∉ v.toList) : ¬ ' ' :: v.toList <:+ t.words.toList := by
  have hnot : ∀ w ∈ t.first :: t.more, ' ' ∉ w.toList := fun w hw hmem =>
    absurd (continuesWord_of_isWord (h.words w hw) ' ' hmem) (by decide)
  intro hsuffix
  rw [hupper.toList_words, front] at hsuffix
  rcases List.eq_nil_or_concat' t.more with hnil | ⟨ws, w, hmore⟩
  · have hfirst : textOf (word t.first.toList :: nextWords []) = t.first.toList := List.append_nil _
    rw [hnil, hfirst] at hsuffix
    exact hnot _ List.mem_cons_self (hsuffix.subset List.mem_cons_self)
  · have hlast : ' ' :: w.toList <:+ textOf (word t.first.toList :: nextWords t.more) := by
      refine ⟨t.first.toList ++ textOf (nextWords ws), ?_⟩
      rw [hmore, Atom.textOf_cons, textOf_nextWords, textOf_nextWords, List.flatMap_append,
        List.flatMap_singleton, List.append_assoc]
      rfl
    have hw := hnot w (by simp [hmore])
    -- both texts start with their only blank
    have heq : v = w := by
      rcases List.suffix_or_suffix_of_suffix hsuffix hlast with hshort | hshort
      · rcases List.suffix_cons_iff.1 hshort with heq | hinside
        · exact String.toList_inj.1 (List.cons.inj heq).2
        · exact absurd (hinside.subset List.mem_cons_self) hw
      · rcases List.suffix_cons_iff.1 hshort with heq | hinside
        · exact String.toList_inj.1 (List.cons.inj heq).2.symm
        · exact absurd (hinside.subset List.mem_cons_self) hblank
    exact hv (heq ▸ mem_typeWords_of_more h hupper hmore)

/-- No suffix is part of a name. -/
theorem not_suffix_words (h : t.Formed) (hupper : t.Upper) {suffix : String}
    (hsuffix : suffix ∈ typeSuffixes) : ¬ suffix.toList <:+ t.words.toList := by
  simp only [typeSuffixes, List.mem_cons, List.not_mem_nil, or_false] at hsuffix
  rcases hsuffix with rfl | rfl | rfl
  · exact not_blank_suffix_words h hupper (v := "UNSIGNED") (by decide) (by decide)
  · exact not_blank_suffix_words h hupper (v := "ZEROFILL") (by decide) (by decide)
  · exact fun hbracket => not_mem_words h hupper (by decide) (by decide)
      (hbracket.subset (show ']' ∈ "[]".toList by decide))

/-! ### Suffixes -/

theorem not_close_brackets (n : Nat) : ')' ∉ textOf (brackets n) := by
  induction n with
  | zero => exact List.not_mem_nil
  | succ n ih =>
    have hopen : ')' ≠ '[' ∧ ')' ≠ ']' := by decide
    exact List.not_mem_cons_of_ne_of_not_mem hopen.1 (List.not_mem_cons_of_ne_of_not_mem hopen.2 ih)

theorem not_close_suffix (h : t.Formed) : ')' ∉ textOf t.suffix := by
  intro hmem
  rw [t.suffix_eq, Atom.textOf_append, textOf_nextWords] at hmem
  rcases List.mem_append.1 hmem with hmem | hmem
  · obtain ⟨w, hw, hmem⟩ := List.mem_flatMap.1 hmem
    rcases List.mem_cons.1 hmem with hblank | hmem
    · exact absurd hblank (by decide)
    · exact absurd (continuesWord_of_isWord (h.wordText w hw) ')' hmem) (by decide)
  · exact not_close_brackets _ hmem

theorem zone_of_suffix (hsuffix : t.suffix = []) : t.zone = [] := by
  rw [t.suffix_eq] at hsuffix
  cases hzone : t.zone with
  | nil => rfl
  | cons w ws =>
    rw [hzone] at hsuffix
    exact absurd hsuffix (by simp [nextWords])

theorem arrays_of_suffix (hsuffix : t.suffix = []) : t.arrays = 0 := by
  rw [t.suffix_eq] at hsuffix
  cases harrays : t.arrays with
  | zero => rfl
  | succ n =>
    rw [harrays] at hsuffix
    exact absurd hsuffix (by simp [brackets])

/-- A suffix behind the name stands out. -/
theorem mem_suffix (hsuffix : t.suffix ≠ []) : ' ' ∈ textOf t.suffix ∨ '[' ∈ textOf t.suffix := by
  rw [t.suffix_eq] at hsuffix ⊢
  generalize t.zone ++ t.marks = ws at hsuffix ⊢
  generalize t.arrays = n at hsuffix ⊢
  cases ws with
  | cons w ws => exact .inl List.mem_cons_self
  | nil =>
    cases n with
    | zero => exact absurd rfl hsuffix
    | succ n => exact .inr List.mem_cons_self

theorem exists_typeSuffix (hupper : t.Upper) (hzone : t.zone = []) (hsuffix : t.suffix ≠ []) :
    ∃ suffix ∈ typeSuffixes, suffix.toList <:+ textOf t.suffix := by
  rw [t.suffix_eq, hzone, List.nil_append] at hsuffix ⊢
  cases harrays : t.arrays with
  | succ n =>
    rw [Atom.textOf_append, textOf_brackets_succ]
    exact ⟨"[]", by decide, (List.suffix_append _ _).trans (List.suffix_append _ _)⟩
  | zero =>
    rw [harrays] at hsuffix
    rcases List.eq_nil_or_concat' t.marks with hnil | ⟨ms, m, hmarks⟩
    · rw [hnil] at hsuffix
      exact absurd rfl hsuffix
    · have hm := hupper.marks m (by simp [hmarks])
      have htext : textOf (nextWords t.marks ++ brackets 0) =
          textOf (nextWords ms) ++ ' ' :: m.toList := by
        rw [hmarks, Atom.textOf_append, textOf_nextWords, textOf_nextWords, List.flatMap_append,
          List.flatMap_singleton]
        exact List.append_nil _
      rw [htext]
      simp only [signWords, List.mem_cons, List.not_mem_nil, or_false] at hm
      rcases hm with rfl | rfl
      · exact ⟨" UNSIGNED", by decide, List.suffix_append _ _⟩
      · exact ⟨" ZEROFILL", by decide, List.suffix_append _ _⟩

end TypeText

/-! ### What a type is printed as -/

/-- The text is what the type is printed as, and makes it. -/
structure TypeText.Prints (t : TypeText) (c : Column) : Prop where
  formed : t.Formed
  text : c.fullType.toList = t.text
  type : (t.column "x").SameType c
  not_serial : c.dataType ∉ serialTypes
  placed : ¬ c.Misplaced
  legible : ∀ d, c.Legible d → t.Legible d false

theorem TypeText.Prints.of_sameType (h : t.Prints a) (hsame : Column.SameType a b) : t.Prints b where
  formed := h.formed
  text := hsame.fullType_eq ▸ h.text
  type := h.type.trans hsame
  not_serial := hsame.dataType ▸ h.not_serial
  placed := hsame.misplaced_iff.not.1 h.placed
  legible d hlegible := h.legible d (hsame.symm.legible hlegible)

theorem TypeText.Prints.exists_declares (h : t.Prints c) (hlegible : c.Legible d) :
    ∃ x, Declares d c.fullType false x ∧ x.SameType c := by
  have hserial : (t.column "x").dataType ∉ serialTypes := h.type.dataType ▸ h.not_serial
  refine ⟨_, declares_of_text h.formed hserial (h.legible d hlegible) h.text, ?_⟩
  exact ⟨h.type.dataType, h.type.length, h.type.precision, h.type.scale⟩

/-! ### Types that are printed as they are read -/

theorem not_serial_of_mem {dataType : String} {b : Char} (hb : b ∈ [' ', '[', '('])
    (hmem : b ∈ dataType.toList) : dataType ∉ serialTypes := by
  have hall : ∀ s ∈ serialTypes, ∀ b ∈ [' ', '[', '('], b ∉ s.toList := by decide
  exact fun hserial => hall _ hserial b hb hmem

namespace TypeText

theorem toList_dataType (h : t.Formed) (hupper : t.Upper) (name : String) :
    (t.column name).dataType.toList = (t.sized name).dataType.toList ++ textOf t.suffix := by
  have hdata : (t.column name).dataType =
      (t.sized name).dataType ++ String.ofList (upper (textOf t.suffix)) := rfl
  rw [hdata, hupper.textOf_suffix h.zone, String.toList_append, String.toList_ofList]

theorem brackets_suffix (h : t.Formed) (hupper : t.Upper) (harrays : t.arrays ≠ 0) (name : String) :
    "[]".toList <:+ (t.column name).dataType.toList := by
  obtain ⟨n, hn⟩ := Nat.exists_eq_succ_of_ne_zero harrays
  rw [toList_dataType h hupper, t.suffix_eq, hn, Atom.textOf_append, textOf_brackets_succ,
    ← List.append_assoc, ← List.append_assoc]
  exact List.suffix_append _ _

/-- The type with other parameters. -/
def resized (t : TypeText) (p : Option (List Char)) : TypeText := { t with parameters := p }

theorem formed_resized (h : t.Formed) (p : Option (List Char)) : (t.resized p).Formed :=
  ⟨h.words, h.chain, h.not_interval, h.zone, h.time, h.marks⟩

theorem upper_resized (hupper : t.Upper) (p : Option (List Char)) : (t.resized p).Upper :=
  ⟨hupper.words, hupper.marks⟩

/-- A type without parameters is printed as it is. -/
theorem prints_of_none (h : t.Formed) (hupper : t.Upper) (hp : t.parameters = none)
    (hserial : (t.column "x").dataType ∉ serialTypes) : t.Prints (t.column "x") := by
  have hsized : t.sized "x" = { name := "x", dataType := t.words } := by rw [sized, hp]
  have hnil : (t.column "x").sizes = [] := by
    rw [Column.sizes_eq_nil_iff, column, hsized]
    exact ⟨ite_self none, rfl⟩
  refine ⟨h, ?_, .refl _, hserial, fun hplaced => hplaced.1 hnil, fun d hlegible => ?_⟩
  · rw [(fullType_eq_iff _).2 hnil, toList_dataType h hupper, hsized, text, hp, hupper.toList_words]
    simp
  · exact legible_of_none h hp fun harrays => hlegible.brackets (brackets_suffix h hupper harrays "x")

/-- A name with the numbers that it takes is printed as it is. -/
theorem exists_prints_of_parametrized (h : t.Formed) (hupper : t.Upper) (hsuffix : t.suffix = [])
    (hdata : c.dataType = t.words) (hparameters : c.Parametrized) (hserial : c.dataType ∉ serialTypes) :
    ∃ t' : TypeText, t'.Prints c := by
  have hzone := zone_of_suffix hsuffix
  have hcolumn : ∀ p, (t.resized p).column "x" = (t.resized p).sized "x" := fun p =>
    @column_of_suffix (t.resized p) hzone hsuffix "x"
  by_cases hnil : c.parameters = []
  case pos =>
    have hsame : ((t.resized none).column "x").SameType c := by
      simp only [Column.parameters, List.append_eq_nil_iff, Option.toList_eq_nil_iff] at hnil
      rw [hcolumn]
      exact ⟨hdata.symm, hnil.1.1.symm, hnil.1.2.symm, hnil.2.symm⟩
    have hprints := prints_of_none (formed_resized h none) (upper_resized hupper none) rfl
      (hsame.dataType ▸ hserial)
    exact ⟨t.resized none, hprints.of_sameType hsame⟩
  case neg =>
    have hbare : Column.SameType { name := "x", dataType := t.words }
        { name := c.name, dataType := c.dataType } := ⟨hdata.symm, rfl, rfl, rfl⟩
    have hsame : ((t.resized (some (textOf (numbers c.parameters)))).column "x").SameType c := by
      have hsized := sameType_withParameters hbare (textOf (numbers c.parameters))
      rw [withParameters_numbers hparameters hnil, ← trim_numbers] at hsized
      rw [hcolumn]
      exact hsized.trans ⟨rfl, rfl, rfl, rfl⟩
    refine ⟨_, formed_resized h _, ?_, hsame, hserial, fun hplaced => ?_, fun d _ => ?_⟩
    · have hempty : textOf (t.resized (some (textOf (numbers c.parameters)))).suffix = [] :=
        congrArg textOf hsuffix
      rw [toList_fullType, hparameters.sizes_eq, textOf_parameters hnil, hdata, hupper.toList_words,
        text, hempty, List.append_nil]
      rfl
    · obtain ⟨-, suffix, hmem, hends⟩ := hplaced
      rw [hdata] at hends
      exact not_suffix_words h hupper hmem hends
    · refine legible_of_numbers (formed_resized h _) (fun harrays => ?_) fun p hp =>
        ⟨c.parameters, (Option.some.inj hp).symm⟩
      exact absurd (arrays_of_suffix hsuffix) harrays

/-- A text that has no fields is printed as it is kept. -/
theorem prints_of_kept (h : t.Formed) (hupper : t.Upper) {p : List Char} (hp : t.parameters = some p)
    (hsizes : (t.sized "x").sizes = [])
    (hkept : (t.sized "x").dataType = t.words ++ "(" ++ String.ofList (trim p) ++ ")") :
    (t.resized (some (trim p))).Prints (t.column "x") := by
  have hcolumn : (t.resized (some (trim p))).column "x" = t.column "x" := by
    have hsized : (t.resized (some (trim p))).sized "x" = t.sized "x" := by
      show withParameters _ (trim (trim p)) = _
      rw [Statement.trim_trim, sized, hp]
      rfl
    rw [column, hsized]
    rfl
  have hdata : (t.column "x").dataType.toList =
      t.words.toList ++ '(' :: (trim p ++ ')' :: textOf t.suffix) := by
    rw [toList_dataType h hupper, hkept]
    simp [String.toList_append]
  have hnil : (t.column "x").sizes = [] := by
    obtain ⟨hlength, hprecision⟩ := (Column.sizes_eq_nil_iff _).1 hsizes
    rw [Column.sizes_eq_nil_iff, column, hlength]
    exact ⟨ite_self none, hprecision⟩
  refine ⟨formed_resized h _, ?_, hcolumn ▸ .refl _, ?_, fun hplaced => hplaced.1 hnil,
    fun d hlegible => ?_⟩
  · rw [(fullType_eq_iff _).2 hnil, hdata, hupper.toList_words]
    simp [resized, text, front, suffix]
  · refine not_serial_of_mem (b := '(') (by decide) ?_
    rw [hdata]
    simp
  · have hopen : '(' ∉ t.words.toList := not_mem_words h hupper (by decide) (by decide)
    have hparts := hlegible.parameters _ _ _ hdata hopen (not_close_suffix h)
    have htail : " NOT NULL)".toList = textOf (declarationTail false) := by decide +kernel
    rw [toList_declarationHead, htail, ← Atom.textOf_append, hupper.toList_words] at hparts
    refine ⟨fun q hq => ?_, fun q hq => ?_, fun harrays => ?_⟩
    · obtain rfl := Option.some.inj hq
      exact hparts.1
    · obtain rfl := Option.some.inj hq
      rw [Atom.textOf_append, Atom.textOf_append]
      exact hparts.2
    · exact hlegible.brackets (brackets_suffix h hupper harrays "x")

/-- The parameters are numbers that the type takes, or a text that has no fields. -/
theorem sized_cases (t : TypeText) (name : String) :
    ((t.sized name).dataType = t.words ∧ (t.sized name).Parametrized) ∨
      ∃ p, t.parameters = some p ∧ (t.sized name).sizes = [] ∧
        (t.sized name).dataType = t.words ++ "(" ++ String.ofList (trim p) ++ ")" := by
  cases hp : t.parameters with
  | none =>
    have hsized : t.sized name = { name, dataType := t.words } := by rw [sized, hp]
    refine .inl ⟨by rw [hsized], ?_⟩
    rw [hsized, Column.Parametrized]
    split
    case isTrue => exact ⟨rfl, by simp⟩
    case isFalse => exact ⟨rfl, rfl⟩
  | some p =>
    have hsized : t.sized name = withParameters { name, dataType := t.words } (trim p) := by
      rw [sized, hp]
    have hbare : ({ name, dataType := t.words } : Column).Bare := ⟨rfl, rfl, rfl⟩
    rw [hsized]
    refine (withParameters_parametrized hbare (trim p)).imp_right fun hkept => ⟨p, rfl, hkept.1, ?_⟩
    rw [hkept.2, Statement.trim_trim]

/-- A time zone leaves no numbers behind it. -/
theorem sizes_of_zone (h : t.Formed) (hzone : t.zone ≠ []) (hname : (t.sized "x").dataType = t.words)
    (hparameters : (t.sized "x").Parametrized) : (t.column "x").sizes = [] := by
  have hall : ∀ s ∈ numericTypes, ¬ "TIME".toList <+: s.toList := by decide
  have hnumeric : (t.sized "x").dataType ∉ numericTypes := fun hmem =>
    hall _ hmem (hname ▸ h.time hzone)
  rw [Column.Parametrized, if_neg hnumeric] at hparameters
  rw [Column.sizes_eq_nil_iff, column]
  exact ⟨if_neg hzone, hparameters.1⟩

theorem dataType_resized (h : t.Formed) (hupper : t.Upper) (hname : (t.sized "x").dataType = t.words) :
    ((t.resized none).column "x").dataType = (t.column "x").dataType := by
  rw [← String.toList_inj, toList_dataType (formed_resized h none) (upper_resized hupper none),
    toList_dataType h hupper, hname]
  rfl

theorem not_serial_of_suffix (h : t.Formed) (hupper : t.Upper) (hsuffix : t.suffix ≠ []) :
    (t.column "x").dataType ∉ serialTypes := by
  have hmem : ∀ b ∈ textOf t.suffix, b ∈ (t.column "x").dataType.toList := fun b hb => by
    rw [toList_dataType h hupper]
    exact List.mem_append_right _ hb
  rcases mem_suffix hsuffix with hblank | hbracket
  · exact not_serial_of_mem (by decide) (hmem _ hblank)
  · exact not_serial_of_mem (by decide) (hmem _ hbracket)

/-- Words and suffixes alone are printed as they are. -/
theorem prints_of_suffix (h : t.Formed) (hupper : t.Upper) (hsuffix : t.suffix ≠ [])
    (hname : (t.sized "x").dataType = t.words) (hparameters : (t.sized "x").Parametrized)
    (hsizes : (t.column "x").sizes = []) : (t.resized none).Prints (t.column "x") := by
  have hsame : ((t.resized none).column "x").SameType (t.column "x") := by
    obtain ⟨hlength, hprecision⟩ := (Column.sizes_eq_nil_iff _).1 hsizes
    refine ⟨dataType_resized h hupper hname, ?_, hprecision.symm, ?_⟩
    · rw [hlength]
      exact ite_self none
    · exact (hparameters.scale_eq_none hprecision).symm
  exact (prints_of_none (formed_resized h none) (upper_resized hupper none) rfl
    (not_serial_of_suffix (formed_resized h none) (upper_resized hupper none) hsuffix)).of_sameType hsame

/-- Numbers behind a suffix are not read back. -/
theorem exists_error_of_sizes (h : t.Formed) (hupper : t.Upper) (hsuffix : t.suffix ≠ [])
    (hname : (t.sized "x").dataType = t.words) (hsizes : (t.column "x").sizes ≠ [])
    (hlegible : (t.column "x").Legible d) : ∃ e, parseScript d
      (declarationText (t.column "x").fullType.toList false ++ [';']) = .error e := by
  have hformed := formed_resized h none
  have htext : (t.column "x").fullType.toList =
      (t.resized none).text ++ textOf (Atom.parameters (t.column "x").sizes) := by
    rw [toList_fullType, toList_dataType h hupper, hname, hupper.toList_words]
    simp [resized, text, front, suffix]
  have hserial := not_serial_of_suffix hformed (upper_resized hupper none) hsuffix
  rw [htext]
  exact exists_error_of_suffix hformed rfl hserial hsuffix
    (fun harrays => hlegible.brackets (brackets_suffix h hupper harrays "x")) hsizes

end TypeText

/-! ### Serial types -/

/-- What serial types are read as. -/
def integerTypes : List String := ["INTEGER", "BIGINT", "SMALLINT"]

theorem withoutSerial_of_serial (h : c.dataType ∈ serialTypes) : ∃ w ∈ integerTypes,
    (withoutSerial c).SameType { c with dataType := w } := by
  unfold withoutSerial
  simp only [serialTypes, List.mem_cons, List.not_mem_nil, or_false] at h
  rcases h with h | h | h | h | h | h
  all_goals
    rw [h]
  · exact ⟨"INTEGER", by decide, rfl, rfl, rfl, rfl⟩
  · exact ⟨"INTEGER", by decide, rfl, rfl, rfl, rfl⟩
  · exact ⟨"BIGINT", by decide, rfl, rfl, rfl, rfl⟩
  · exact ⟨"BIGINT", by decide, rfl, rfl, rfl, rfl⟩
  · exact ⟨"SMALLINT", by decide, rfl, rfl, rfl, rfl⟩
  · exact ⟨"SMALLINT", by decide, rfl, rfl, rfl, rfl⟩

theorem TypeText.formed_integer {w : String} (h : w ∈ integerTypes) :
    ({ first := w } : TypeText).Formed ∧ ({ first := w } : TypeText).Upper := by
  have hall : ∀ w ∈ integerTypes, isWordText w = true ∧ upperWord w ≠ "INTERVAL" ∧ upperWord w = w := by
    decide
  obtain ⟨hword, hinterval, hupper⟩ := hall w h
  refine ⟨⟨List.forall_mem_singleton.2 hword, List.IsChain.singleton _, hinterval, .inl rfl,
    fun hne => absurd rfl hne, fun _ hw => absurd hw List.not_mem_nil⟩, ?_⟩
  exact ⟨List.forall_mem_singleton.2 hupper, fun _ hw => absurd hw List.not_mem_nil⟩

/-- A serial type is printed as the integer type that it is read as. -/
theorem exists_prints_withoutSerial (h : c.dataType ∈ serialTypes) (hparameters : c.Parametrized) :
    ∃ t : TypeText, t.Prints (withoutSerial c) := by
  obtain ⟨w, hw, hsame⟩ := withoutSerial_of_serial h
  obtain ⟨hformed, hupper⟩ := TypeText.formed_integer hw
  have hserial : ∀ s ∈ serialTypes, s ∉ numericTypes := by decide
  have hinteger : ∀ s ∈ integerTypes, s ∉ numericTypes ∧ s ∉ serialTypes ∧ upperWord s = s := by decide
  obtain ⟨hnumeric, hnot, heq⟩ := hinteger w hw
  have hwords : ({ first := w } : TypeText).words = w := heq
  have hparameters' : ({ c with dataType := w } : Column).Parametrized := by
    rw [Column.Parametrized, if_neg (hserial _ h)] at hparameters
    rw [Column.Parametrized, if_neg hnumeric]
    exact hparameters
  obtain ⟨t, ht⟩ :=
    TypeText.exists_prints_of_parametrized hformed hupper rfl hwords.symm hparameters' hnot
  exact ⟨t, ht.of_sameType hsame.symm⟩

/-! ### Types read back -/

/-- A type is printed as a text that makes it, unless its numbers are misplaced: then what is
printed is not read. -/
theorem TypeText.exists_prints_or_misplaced (h : t.Formed) (hupper : t.Upper) :
    (∃ t' : TypeText, t'.Prints (withoutSerial (t.column "x"))) ∨
      (withoutSerial (t.column "x")).Misplaced ∧ ∀ d, (withoutSerial (t.column "x")).Legible d →
        ∃ e, parseScript d
          (declarationText (withoutSerial (t.column "x")).fullType.toList false ++ [';']) = .error e := by
  rcases t.sized_cases "x" with ⟨hname, hparameters⟩ | ⟨p, hp, hsizes, hkept⟩
  · -- numbers have their place behind the name, so they need a type without suffix
    by_cases hsuffix : t.suffix = []
    · have hcolumn := column_of_suffix (zone_of_suffix hsuffix) hsuffix "x"
      rw [hcolumn]
      by_cases hserial : (t.sized "x").dataType ∈ serialTypes
      · exact .inl (exists_prints_withoutSerial hserial hparameters)
      · rw [withoutSerial_of_not_mem hserial]
        exact .inl (exists_prints_of_parametrized h hupper hsuffix hname hparameters hserial)
    · rw [withoutSerial_of_not_mem (not_serial_of_suffix h hupper hsuffix)]
      by_cases hsizes : (t.column "x").sizes = []
      · exact .inl ⟨_, prints_of_suffix h hupper hsuffix hname hparameters hsizes⟩
      · have hzone : t.zone = [] := by
          by_contra hne
          exact hsizes (sizes_of_zone h hne hname hparameters)
        obtain ⟨suffix, hmem, hends⟩ := exists_typeSuffix hupper hzone hsuffix
        refine .inr ⟨⟨hsizes, suffix, hmem, ?_⟩, fun d hlegible =>
          exists_error_of_sizes h hupper hsuffix hname hsizes hlegible⟩
        rw [toList_dataType h hupper]
        exact hends.trans (List.suffix_append _ _)
  · have hprints := prints_of_kept h hupper hp hsizes hkept
    rw [withoutSerial_of_not_mem hprints.not_serial]
    exact .inl ⟨_, hprints⟩

/-- An interval is printed as it is. -/
theorem exists_declares_interval {fields : List String} (h : ∀ w ∈ fields, w ∈ intervalFields) :
    ¬ (intervalColumn fields).Misplaced ∧ ∃ x, Declares d (intervalColumn fields).fullType false x ∧
      x.SameType (intervalColumn fields) := by
  have hall : ∀ w ∈ intervalFields, isWordText w = true ∧ upperWord w = w := by decide
  have hwords : ∀ w ∈ fields, isWordText w = true ∧ upperWord w ∈ intervalFields := by
    intro w hw
    obtain ⟨hword, hupper⟩ := hall w (h w hw)
    exact ⟨hword, hupper.symm ▸ h w hw⟩
  have hread := @parseScript_of_interval d false "INTERVAL" (by decide) (by decide) fields hwords
  have hnil : (intervalColumn fields).sizes = [] := rfl
  have htext : (intervalColumn fields).fullType.toList =
      textOf (word "INTERVAL".toList :: nextWords fields) := by
    rw [(fullType_eq_iff _).2 hnil, intervalColumn, toList_joinWords]
  rw [← htext, TypeText.map_upperWord fun w hw => (hall w (h w hw)).2] at hread
  exact ⟨fun hplaced => hplaced.1 hnil, _, declares_of_parseScript hread, rfl, rfl, rfl, rfl⟩

/-- A parsed type is read back from what it is printed as, unless its numbers are misplaced. -/
theorem exists_declares_fullType_iff {sql : String} {s : Schema} (hparse : parse d sql = .ok s)
    {t : Table} (ht : t ∈ s.tables) {c : Column} (hc : c ∈ t.columns) (hlegible : c.Legible d) :
    (∃ x, Declares d c.fullType false x ∧ x.SameType c) ↔ ¬ c.Misplaced := by
  rcases ofText_of_parseScript hparse t ht c hc with ⟨fields, hfields, hsame⟩ | ⟨text, h, hupper, hsame⟩
  · rw [hsame.fullType_eq, hsame.misplaced_iff]
    obtain ⟨hplaced, x, hx, hxsame⟩ := @exists_declares_interval d fields hfields
    exact iff_of_true ⟨x, hx, hxsame.trans hsame.symm⟩ hplaced
  · rw [hsame.fullType_eq, hsame.misplaced_iff]
    rcases TypeText.exists_prints_or_misplaced h hupper with ⟨t', hprints⟩ | ⟨hplaced, herror⟩
    · obtain ⟨x, hx, hxsame⟩ := hprints.exists_declares (hsame.legible hlegible)
      exact iff_of_true ⟨x, hx, hxsame.trans hsame.symm⟩ hprints.placed
    · obtain ⟨e, he⟩ := herror d (hsame.legible hlegible)
      exact iff_of_false (fun ⟨x, hx, _⟩ => not_declares_of_error he hx) (not_not.2 hplaced)

/-! ### Legible types -/

theorem Column.legible_of_words (h : '(' ∉ c.dataType.toList)
    (hbrackets : "[]".toList <:+ c.dataType.toList → d.rules.bracketQuotes = false) : c.Legible d where
  parameters name text suffix hdata := absurd (hdata ▸ by simp) h
  brackets := hbrackets

theorem eq_of_append_mark {b : Char} {front rest front' rest' : List Char}
    (h : front ++ b :: rest = front' ++ b :: rest') (hfront : b ∉ front) (hfront' : b ∉ front') :
    front = front' ∧ rest = rest' := by
  induction front generalizing front' with
  | nil =>
    cases front' with
    | nil => exact ⟨rfl, (List.cons.inj h).2⟩
    | cons c cs => exact absurd (List.mem_cons.2 (.inl (List.cons.inj h).1)) hfront'
  | cons c cs ih =>
    cases front' with
    | nil => exact absurd (List.mem_cons.2 (.inl (List.cons.inj h).1.symm)) hfront
    | cons c' cs' =>
      obtain ⟨rfl, htail⟩ := List.cons.inj h
      rw [List.mem_cons, not_or] at hfront hfront'
      obtain ⟨rfl, hrest⟩ := ih htail hfront.2 hfront'.2
      exact ⟨rfl, hrest⟩

/-- A type has one first and one last parenthesis. -/
theorem Column.legible_of_parts {name text suffix : List Char}
    (hdata : c.dataType.toList = name ++ '(' :: (text ++ ')' :: suffix)) (hname : '(' ∉ name)
    (hsuffix : ')' ∉ suffix) (hcloses : Closes d.rules text (suffix ++ " NOT NULL)".toList))
    (hunbroken : Statement.Unbroken d.rules ("CREATE TABLE t (x ".toList ++ (name ++ ['('])) text)
    (hbrackets : "[]".toList <:+ c.dataType.toList → d.rules.bracketQuotes = false) : c.Legible d where
  parameters name' text' suffix' hdata' hname' hsuffix' := by
    obtain ⟨rfl, hrest⟩ := eq_of_append_mark (hdata.symm.trans hdata') hname hname'
    have hreverse : suffix.reverse ++ ')' :: text.reverse = suffix'.reverse ++ ')' :: text'.reverse := by
      simpa using congrArg List.reverse hrest
    obtain ⟨hends, htext⟩ :=
      eq_of_append_mark hreverse (by simpa using hsuffix) (by simpa using hsuffix')
    obtain rfl := List.reverse_inj.1 hends
    obtain rfl := List.reverse_inj.1 htext
    exact ⟨hcloses, hunbroken⟩
  brackets := hbrackets

theorem exists_declares_fullType_iff_two_columns :
    let unsigned : Column := { name := "a", dataType := "INT UNSIGNED", length := some 10 }
    let listed : Column := { name := "b", dataType := "ENUM('a','b')" }
    (parse .mysql "CREATE TABLE s (a INT(10) UNSIGNED, b ENUM('a','b'));").toOption.map
        (·.tables.flatMap (·.columns)) = some [unsigned, listed] ∧
      unsigned.Legible .mysql ∧ listed.Legible .mysql ∧
      (¬ ∃ x, Declares .mysql "INT UNSIGNED(10)" false x ∧ x.SameType unsigned) ∧
      ∃ x, Declares .mysql "ENUM('a','b')" false x ∧ x.SameType listed := by
  intro unsigned listed
  have hread : (parse .mysql "CREATE TABLE s (a INT(10) UNSIGNED, b ENUM('a','b'));").toOption.map
      (·.tables.flatMap (·.columns)) = some [unsigned, listed] := by decide +kernel
  have hunsigned : unsigned.Legible .mysql := Column.legible_of_words (by decide +kernel) fun _ => rfl
  have hlisted : listed.Legible .mysql := by
    have hdata : listed.dataType.toList = "ENUM".toList ++ '(' :: ("'a','b'".toList ++ ')' :: []) := by
      decide +kernel
    exact Column.legible_of_parts hdata (by decide) List.not_mem_nil (by decide +kernel)
      (by decide +kernel) fun _ => rfl
  obtain ⟨s, hs, hcolumns⟩ := Option.map_eq_some_iff.1 hread
  have hparse : parse .mysql "CREATE TABLE s (a INT(10) UNSIGNED, b ENUM('a','b'));" = .ok s := by
    generalize parse .mysql "CREATE TABLE s (a INT(10) UNSIGNED, b ENUM('a','b'));" = result at hs
    cases result with
    | ok s' => exact congrArg Except.ok (Option.some.inj hs)
    | error e => exact absurd hs (by simp [Except.toOption])
  have hmem : ∀ c ∈ [unsigned, listed], ∃ t ∈ s.tables, c ∈ t.columns := fun c hc =>
    List.mem_flatMap.1 (hcolumns ▸ hc)
  refine ⟨hread, hunsigned, hlisted, ?_, ?_⟩
  · obtain ⟨t, ht, hc⟩ := hmem unsigned (by simp)
    exact (exists_declares_fullType_iff hparse ht hc hunsigned).not.2 (by decide +kernel)
  · obtain ⟨t, ht, hc⟩ := hmem listed (by simp)
    exact (exists_declares_fullType_iff hparse ht hc hlisted).2 (by decide +kernel)

end DdlBridge
