import DdlBridge.Proofs.Grammar.IntervalType
import DdlBridge.Proofs.Grammar.TypeSize
import DdlBridge.Proofs.Text.LetterCase
import DdlBridge.Proofs.Text.Utf8
import DdlBridge.TypeTable.Basic

/-!
# Translated types are read back

The target types of the tables are words, perhaps with parameters, and a few phrases
(`isTarget_between`). A translated column is read back from its text in the target dialect, unless
numbers stand behind a time zone (`exists_declares_translate_iff`).
-/

namespace DdlBridge

open Text Atom Statement Grammar

variable {d : Dialect} {type : String} {nullable : Bool} {w : List Char} {p : Option (List Char)}

/-! ### Words with parameters -/

/-- The text in parentheses, if there is one. -/
def inParentheses (p : Option (List Char)) : List Char := (p.map fun p => '(' :: (p ++ [')'])).getD []

/-- Numbers as they are printed, or one word. -/
def isPlainParameter (p : List Char) : Bool :=
  match (Text.splitAt (· == ',') p).mapM typeParameter? with
  | some ns => p == textOf (numbers ns)
  | none => isWord p

theorem isPlainParameter_cases {p : List Char} (h : isPlainParameter p = true) :
    (∃ ns, ns ≠ [] ∧ p = textOf (numbers ns)) ∨
      isWord p = true ∧ (Text.splitAt (· == ',') p).mapM typeParameter? = none := by
  unfold isPlainParameter at h
  split at h
  case h_1 ns hread =>
    refine .inl ⟨ns, ?_, by simpa using h⟩
    rintro rfl
    obtain rfl : p = textOf (numbers []) := by simpa using h
    exact absurd hread (by decide)
  case h_2 hread => exact .inr ⟨h, hread⟩

theorem isPlainParameter_numbers {ns : List UInt32} (h : ns ≠ []) :
    isPlainParameter (textOf (numbers ns)) = true := by
  unfold isPlainParameter
  rw [mapM_typeParameter?_numbers h]
  exact beq_self_eq_true _

theorem not_blank_of_isWord {w : List Char} (h : isWord w = true) : ∀ c ∈ w, isBlank c = false :=
  fun c hc => not_blank_of_continuesWord (continuesWord_of_isWord h c hc)

theorem trim_plainParameter {p : List Char} (h : isPlainParameter p = true) : trim p = p := by
  rcases isPlainParameter_cases h with ⟨ns, -, rfl⟩ | ⟨hword, -⟩
  · exact trim_numbers ns
  · exact trim_of_not_blank (not_blank_of_isWord hword)

/-- Numbers and words are atoms of their own. -/
theorem exists_atoms_of_plain (rules : LexicalRules) {q : List Char}
    (h : (∃ ns, q = textOf (numbers ns)) ∨ isWord q = true) : ∃ inner : List Atom,
      q = Atom.textOf inner ∧ Apart rules inner ∧ Balanced inner ∧ Inline (Atom.textOf inner) := by
  rcases h with ⟨ns, rfl⟩ | hword
  · exact ⟨_, rfl, (row_numbers ns).apart, balanced_numbers ns, inline_numbers ns⟩
  · have hq : isWordText (String.ofList q) = true := by rwa [isWordText, String.toList_ofList]
    have happart : Apart rules [word (String.ofList q).toList] :=
      .word hq .nil fun c hc => absurd hc (Option.not_mem_none c)
    have hinline := inline_wordText hq
    have hatoms : Atom.textOf [word q] = q := List.append_nil q
    rw [String.toList_ofList] at happart hinline
    exact ⟨[word q], hatoms.symm, happart, rfl, hatoms.symm ▸ hinline⟩

/-- A type of one word. -/
def TypeText.ofWord (w : List Char) (p : Option (List Char)) : TypeText :=
  { first := String.ofList w, parameters := p }

/-- Words that are read as types of their own. -/
def IsTypeName (w : List Char) : Prop :=
  isWord w = true ∧ String.ofList (upper w) ∉ "INTERVAL" :: serialTypes

instance (w : List Char) : Decidable (IsTypeName w) := inferInstanceAs (Decidable (_ ∧ _))

namespace TypeText

theorem text_ofWord (w : List Char) (p : Option (List Char)) :
    (ofWord w p).text = w ++ inParentheses p := by
  have hfront : textOf (ofWord w p).front = w := by
    show (String.ofList w).toList ++ [] = w
    rw [String.toList_ofList, List.append_nil]
  have hsuffix : textOf (ofWord w p).suffix = [] := rfl
  rw [text, hfront, hsuffix, List.append_nil]
  rfl

theorem words_ofWord (w : List Char) (p : Option (List Char)) :
    (ofWord w p).words = String.ofList (upper w) := by
  show upperWord (String.ofList w) = _
  rw [upperWord, String.toList_ofList]

theorem formed_ofWord (h : IsTypeName w) (p : Option (List Char)) : (ofWord w p).Formed where
  words v hv := by
    obtain rfl := List.mem_singleton.1 hv
    rw [isWordText, ofWord, String.toList_ofList]
    exact h.1
  chain := List.IsChain.singleton _
  not_interval heq := h.2 (by
    have hwords := words_ofWord w p
    rw [← hwords]
    exact List.mem_cons.2 (.inl heq))
  zone := .inl rfl
  time hne := absurd rfl hne
  marks v hv := absurd hv List.not_mem_nil

theorem column_ofWord (w : List Char) (p : Option (List Char)) (name : String) :
    (ofWord w p).column name = (ofWord w p).sized name := column_of_suffix rfl rfl name

theorem bare_words (t : TypeText) (name : String) : ({ name, dataType := t.words } : Column).Bare :=
  ⟨rfl, rfl, rfl⟩

/-- The type is printed as it is written, in upper case. -/
theorem toList_fullType_ofWord (hp : ∀ q ∈ p, isPlainParameter q = true) (name : String) :
    ((ofWord w p).column name).fullType.toList = upper w ++ inParentheses p := by
  have hwords : (ofWord w p).words.toList = upper w := by rw [words_ofWord, String.toList_ofList]
  rw [column_ofWord]
  cases p with
  | none =>
    have hnone : ((ofWord w none).sized name).fullType = (ofWord w none).words := rfl
    rw [hnone, hwords]
    exact (List.append_nil _).symm
  | some q =>
    have hsized : (ofWord w (some q)).sized name =
        withParameters { name, dataType := (ofWord w (some q)).words } (trim q) := rfl
    have hbare := bare_words (ofWord w (some q)) name
    rw [hsized, trim_plainParameter (hp q rfl)]
    rcases isPlainParameter_cases (hp q rfl) with ⟨ns, hne, rfl⟩ | ⟨hword, hnone⟩
    · rw [toList_fullType_withParameters hbare hne, hwords, textOf_parameters hne]
      rfl
    · rw [toList_fullType_of_kept hbare (withParameters_of_none hnone), hwords,
        trim_plainParameter (hp q rfl)]
      rfl

theorem not_serial_ofWord (h : IsTypeName w) (p : Option (List Char)) (name : String) :
    ((ofWord w p).column name).dataType ∉ serialTypes := by
  have hname : (ofWord w p).words ∉ serialTypes := by
    rw [words_ofWord]
    exact fun hmem => h.2 (List.mem_cons_of_mem _ hmem)
  rw [column_ofWord]
  cases p with
  | none => exact hname
  | some q =>
    exact @not_serial_withParameters { name, dataType := (ofWord w (some q)).words } hname (trim q)

theorem legible_ofWord (h : IsTypeName w) (hp : ∀ q ∈ p, isPlainParameter q = true) :
    (ofWord w p).Legible d nullable := by
  refine legible_of_atoms (formed_ofWord h p) (fun hne => absurd rfl hne) fun q hq => ?_
  exact exists_atoms_of_plain d.rules (isPlainParameter_cases (hp q hq) |>.imp
    (fun ⟨ns, hns⟩ => ⟨ns, hns.2⟩) And.left)

end TypeText

/-- A word is declared with any plain parameter behind it. -/
theorem exists_declares_word (h : IsTypeName w) (hp : ∀ q ∈ p, isPlainParameter q = true)
    (d : Dialect) (nullable : Bool) (htype : type.toList = w ++ inParentheses p) :
    ∃ x, Declares d type nullable x ∧ x.nullable = nullable ∧ sameName x.fullType type = true := by
  have hdeclares := @declares_of_text d type nullable _ (TypeText.formed_ofWord h p)
    (TypeText.not_serial_ofWord h p "x") (TypeText.legible_ofWord h hp)
    (htype.trans (TypeText.text_ofWord w p).symm)
  refine ⟨_, hdeclares, rfl, ?_⟩
  have hfull : ({ (TypeText.ofWord w p).column "x" with nullable } : Column).fullType.toList =
      upper w ++ inParentheses p := TypeText.toList_fullType_ofWord hp "x"
  rw [sameName, hfull, htype, lower_append, lower_append, lower_upper]
  exact beq_self_eq_true _

/-! ### Targets of more words -/

namespace TypeTable

/-- The targets that are more than a word with its parameters. -/
def phrases : List String :=
  ["double precision", "tinyint unsigned", "TIMESTAMP WITH TIME ZONE", "INTERVAL DAY TO SECOND", "interval"]

/-- A word with plain parameters, if any. -/
def IsSizedWord (type : String) : Prop :=
  ∃ w p, type.toList = w ++ inParentheses p ∧ IsTypeName w ∧ ∀ q ∈ p, isPlainParameter q = true

def IsTarget (target : String) : Prop := IsSizedWord target ∨ target ∈ phrases

/-- Whether the characters are those of a word with plain parameters, if any. -/
def isSizedWord (cs : List Char) : Bool :=
  IsTypeName (cs.takeWhile (· != '(')) &&
    match cs.dropWhile (· != '(') with
    | [] => true
    | _ :: p => p.getLast? == some ')' && isPlainParameter p.dropLast

theorem isSizedWord_of_ascii (hascii : isAscii type = true)
    (h : isSizedWord (asciiChars type) = true) : IsSizedWord type := by
  rw [← toList_of_isAscii hascii] at h
  unfold isSizedWord at h
  rw [Bool.and_eq_true, decide_eq_true_eq] at h
  obtain ⟨hname, hrest⟩ := h
  have hparts := (List.takeWhile_append_dropWhile (p := (· != '(')) (l := type.toList)).symm
  split at hrest
  case h_1 hdrop =>
    refine ⟨_, none, ?_, hname, fun q hq => absurd hq (Option.not_mem_none q)⟩
    rwa [hdrop] at hparts
  case h_2 c p hdrop =>
    rw [Bool.and_eq_true, beq_iff_eq] at hrest
    obtain ⟨hlast, hplain⟩ := hrest
    have hopen : c = '(' := by
      have hne : type.toList.dropWhile (· != '(') ≠ [] := by
        rw [hdrop]
        exact List.cons_ne_nil c p
      have hhead := List.head_dropWhile_not (· != '(') hne
      simpa [hdrop] using hhead
    obtain rfl := hopen
    obtain ⟨q, rfl⟩ := List.getLast?_eq_some_iff.1 hlast
    rw [List.dropLast_concat] at hplain
    refine ⟨_, some q, ?_, hname, fun q' hq' => Option.some.inj hq' ▸ hplain⟩
    rwa [hdrop] at hparts

/-- Every target of every table. -/
theorem isTarget_between {source target : Dialect} {table : TypeTable}
    (h : between source target = some table) : ∀ e ∈ table.entries, IsTarget e.2 := by
  have hall : ∀ table ∈ between source target, ∀ e ∈ table.entries,
      (isAscii e.2 = true ∧ isSizedWord (asciiChars e.2) = true) ∨ e.2 ∈ phrases := by
    cases source <;> cases target <;> decide +kernel
  intro e he
  rcases hall table h e he with ⟨hascii, hsized⟩ | hmem
  · exact .inl (isSizedWord_of_ascii hascii hsized)
  · exact .inr hmem

/-- A translated type is a target, and keeps its numbers only behind one that takes them. -/
theorem target_of_translate? {table : TypeTable} {c c' : Column} (h : table.translate? c = some c') :
    (∃ e ∈ table.entries, c'.dataType = e.2) ∧
      (c'.sizes = [] ∨ '(' ∉ c'.dataType.toList ∧ takesParameters c'.dataType = true) := by
  have hget : ∀ {key target}, table.get? key = some target → ∃ e ∈ table.entries, target = e.2 := by
    intro key target hkey
    obtain ⟨e, he, rfl⟩ := Option.map_eq_some_iff.1 hkey
    exact ⟨e, List.mem_of_find?_eq_some he, rfl⟩
  have hresolve : ∀ {target drop}, table.resolve c = some (target, drop) →
      (∃ e ∈ table.entries, target = e.2) ∧
        (drop = true ∨ '(' ∉ target.toList ∧ takesParameters target = true) := by
    intro target drop hresolved
    unfold resolve at hresolved
    dsimp only at hresolved
    split at hresolved
    case h_1 target' hlisted =>
      obtain ⟨rfl, rfl⟩ := Prod.mk.inj (Option.some.inj hresolved)
      split at hlisted
      case isTrue => exact absurd hlisted (by simp)
      case isFalse => exact ⟨hget hlisted, .inl rfl⟩
    case h_2 =>
      obtain ⟨target', hfound, heq⟩ := Option.map_eq_some_iff.1 hresolved
      obtain ⟨rfl, rfl⟩ := Prod.mk.inj heq
      obtain ⟨key, -, hkey⟩ := List.exists_of_findSome?_eq_some hfound
      refine ⟨hget hkey, ?_⟩
      by_cases hparen : '(' ∈ target'.toList
      · exact .inl (by simp [hparen])
      · cases htakes : takesParameters target' with
        | true => exact .inr ⟨hparen, rfl⟩
        | false => exact .inl (by simp)
  obtain ⟨⟨target, drop⟩, hresolved, heq⟩ := Option.map_eq_some_iff.1 h
  obtain ⟨hmem, hkept⟩ := hresolve hresolved
  cases drop with
  | true =>
    obtain rfl := heq
    exact ⟨hmem, .inl rfl⟩
  | false =>
    obtain rfl := heq
    exact ⟨hmem, .inr (hkept.resolve_left (by simp))⟩

end TypeTable

/-- An instant of time with its zone. -/
def TypeText.zonedTimestamp : TypeText := { first := "TIMESTAMP", zone := ["WITH", "TIME", "ZONE"] }

theorem TypeText.formed_zonedTimestamp : zonedTimestamp.Formed where
  words := by decide
  chain := by decide
  not_interval := by decide
  zone := .inr (by decide)
  time _ := by decide
  marks := by decide

/-- Every phrase is declared as it is written. -/
theorem exists_declares_phrase (h : type ∈ TypeTable.phrases) (d : Dialect) (nullable : Bool) :
    ∃ x, Declares d type nullable x ∧ x.nullable = nullable ∧ sameName x.fullType type = true := by
  have htext : ∀ {t : TypeText}, t.Formed → t.parameters = none → t.arrays = 0 →
      (t.column "x").dataType ∉ serialTypes → type.toList = t.text →
      sameName (t.column "x").fullType type = true →
      ∃ x, Declares d type nullable x ∧ x.nullable = nullable ∧ sameName x.fullType type = true := by
    intro t hformed hp harrays hserial htype hsame
    have hlegible : t.Legible d nullable :=
      TypeText.legible_of_none hformed hp fun hne => absurd harrays hne
    exact ⟨_, declares_of_text hformed hserial hlegible htype, rfl, hsame⟩
  have hinterval : ∀ {first : String} {fields : List String}, upperWord first = "INTERVAL" →
      isWordText first = true → (∀ w ∈ fields, isWordText w = true ∧ upperWord w ∈ intervalFields) →
      type.toList = Atom.textOf (word first.toList :: nextWords fields) →
      sameName (joinWith " " ("INTERVAL" :: fields.map upperWord)) type = true →
      ∃ x, Declares d type nullable x ∧ x.nullable = nullable ∧ sameName x.fullType type = true := by
    intro first fields hfirst hword hfields htype hsame
    have hparse := @parseScript_of_interval d nullable _ hfirst hword _ hfields
    rw [← htype] at hparse
    exact ⟨_, declares_of_parseScript hparse, rfl, hsame⟩
  simp only [TypeTable.phrases, List.mem_cons, List.not_mem_nil, or_false] at h
  rcases h with rfl | rfl | rfl | rfl | rfl
  · refine htext (t := { first := "double", more := ["precision"] }) ?_ rfl rfl (by decide) (by decide)
      (by decide)
    exact ⟨by decide, by decide, by decide, .inl rfl, fun hne => absurd rfl hne, by decide⟩
  · refine htext (t := { first := "tinyint", marks := ["unsigned"] }) ?_ rfl rfl (by decide) (by decide)
      (by decide)
    exact ⟨by decide, by decide, by decide, .inl rfl, fun hne => absurd rfl hne, by decide⟩
  · exact htext TypeText.formed_zonedTimestamp rfl rfl (by decide) (by decide) (by decide)
  · exact @hinterval "INTERVAL" ["DAY", "TO", "SECOND"] (by decide) (by decide) (by decide) (by decide)
      (by decide)
  · exact @hinterval "interval" [] (by decide) (by decide) (by decide) (by decide) (by decide)

/-! ### Translated columns -/

theorem not_zoned_of_word {target : String} (hname : IsTypeName w)
    (htext : target.toList = w ++ inParentheses p) : target ≠ "TIMESTAMP WITH TIME ZONE" := by
  rintro rfl
  cases p with
  | some q =>
    have hmem : '(' ∈ "TIMESTAMP WITH TIME ZONE".toList := by
      rw [htext]
      exact List.mem_append_right w List.mem_cons_self
    exact absurd hmem (by decide)
  | none =>
    have hmem : ' ' ∈ w := by
      have hw : w = "TIMESTAMP WITH TIME ZONE".toList := (htext.trans (List.append_nil w)).symm
      rw [hw]
      decide
    exact absurd (not_blank_of_isWord hname.1 ' ' hmem) (by decide)

/-- A word that is printed with numbers, if any, is declared. -/
theorem exists_declares_of_word {c : Column} (hname : IsTypeName w)
    (hp : ∀ q ∈ p, isPlainParameter q = true) (htext : c.dataType.toList = w ++ inParentheses p)
    (hsizes : c.sizes = [] ∨ '(' ∉ c.dataType.toList) (d : Dialect) (nullable : Bool) :
    ∃ x, Declares d c.fullType nullable x ∧ x.nullable = nullable ∧
      sameName x.fullType c.fullType = true := by
  by_cases hnil : c.sizes = []
  · have hfull : c.fullType.toList = w ++ inParentheses p := by rw [(fullType_eq_iff c).2 hnil, htext]
    exact exists_declares_word hname hp d nullable hfull
  · have hparen := hsizes.resolve_left hnil
    cases p with
    | some q =>
      rw [htext] at hparen
      exact absurd (List.mem_append_right w List.mem_cons_self) hparen
    | none =>
      have hfull : c.fullType.toList = w ++ inParentheses (some (textOf (numbers c.sizes))) := by
        rw [toList_fullType, htext, textOf_parameters hnil, List.append_assoc]
        rfl
      refine exists_declares_word hname (fun q hq => ?_) d nullable hfull
      obtain rfl := Option.some.inj hq
      exact isPlainParameter_numbers hnil

theorem not_declares_zoned {c : Column} (hzoned : c.dataType = "TIMESTAMP WITH TIME ZONE")
    (hsizes : c.sizes ≠ []) (d : Dialect) (x : Column) : ¬ Declares d c.fullType false x := by
  have hserial : (TypeText.zonedTimestamp.column "x").dataType ∉ serialTypes := by decide
  have hsuffix : TypeText.zonedTimestamp.suffix ≠ [] := by decide
  have htext : c.fullType.toList = TypeText.zonedTimestamp.text ++ textOf (Atom.parameters c.sizes) := by
    have hword : "TIMESTAMP WITH TIME ZONE".toList = TypeText.zonedTimestamp.text := by decide
    rw [toList_fullType, hzoned, hword]
  obtain ⟨e, he⟩ := exists_error_of_suffix (d := d) TypeText.formed_zonedTimestamp rfl hserial hsuffix
    (fun hne => absurd rfl hne) hsizes
  rw [← htext] at he
  exact not_declares_of_error he

/-- A translated column is read back as it is printed, unless numbers stand behind a time zone. -/
theorem exists_declares_translate_iff {source target : Dialect} {table : TypeTable} {c c' : Column}
    (htable : TypeTable.between source target = some table) (h : table.translate? c = some c') :
    (∃ x, Declares target c'.fullType false x ∧ x.nullable = false ∧
        sameName x.fullType c'.fullType = true) ↔
      ¬ (c'.dataType = "TIMESTAMP WITH TIME ZONE" ∧ c'.fullType ≠ c'.dataType) := by
  obtain ⟨⟨e, he, htype⟩, hsizes⟩ := TypeTable.target_of_translate? h
  rw [Ne, fullType_eq_iff]
  rcases TypeTable.isTarget_between htable e he with ⟨w, p, htext, hname, hp⟩ | hphrase
  · rw [← htype] at htext
    refine iff_of_true ?_ fun hzoned => not_zoned_of_word hname htext hzoned.1
    exact exists_declares_of_word hname hp htext (hsizes.imp_right And.left) target false
  · rw [← htype] at hphrase
    by_cases hnil : c'.sizes = []
    · refine iff_of_true ?_ fun hzoned => hzoned.2 hnil
      rw [(fullType_eq_iff c').2 hnil]
      exact exists_declares_phrase hphrase target false
    · have hall : ∀ v ∈ TypeTable.phrases, TypeTable.takesParameters v = true →
          v = "TIMESTAMP WITH TIME ZONE" := by decide +kernel
      have hzoned := hall _ hphrase (hsizes.resolve_left hnil).2
      refine iff_of_false ?_ (not_not.2 ⟨hzoned, hnil⟩)
      rintro ⟨x, hx, -⟩
      exact not_declares_zoned hzoned hnil target x hx

theorem exists_declares_translate_iff_two_columns :
    let precise : Column := { name := "a", dataType := "DATETIMEOFFSET", length := some 7 }
    let zoned : Column := { precise with dataType := "TIMESTAMP WITH TIME ZONE" }
    let table : TypeTable := ⟨TypeTable.sqlServerToOracle⟩
    ((parse .sqlServer "CREATE TABLE s (a DATETIMEOFFSET(7));").toOption.map
          (·.tables.flatMap (·.columns)) = some [precise] ∧
        TypeTable.between .sqlServer .oracle = some table ∧ table.translate? precise = some zoned ∧
      ¬ ∃ x, Declares .oracle zoned.fullType false x ∧ x.nullable = false ∧
        sameName x.fullType zoned.fullType = true) ∧
    TypeTable.between .mysql .sqlServer = some ⟨TypeTable.mysqlToSqlServer⟩ ∧
      TypeTable.translate? ⟨TypeTable.mysqlToSqlServer⟩
          { name := "a", dataType := "DECIMAL", precision := some 10, scale := some 2 } =
        some { name := "a", dataType := "decimal", precision := some 10, scale := some 2 } ∧
      ∃ x, Declares .sqlServer "decimal(10,2)" false x ∧ x.nullable = false ∧
        sameName x.fullType "decimal(10,2)" = true := by
  refine ⟨⟨by decide +kernel, rfl, by decide +kernel, ?_⟩, rfl, by decide +kernel, ?_⟩
  · exact (@exists_declares_translate_iff .sqlServer .oracle _
      { name := "a", dataType := "DATETIMEOFFSET", length := some 7 } _ rfl (by decide +kernel)).not.2
      (by decide +kernel)
  · exact (@exists_declares_translate_iff .mysql .sqlServer _
      { name := "a", dataType := "DECIMAL", precision := some 10, scale := some 2 }
      { name := "a", dataType := "decimal", precision := some 10, scale := some 2 } rfl
      (by decide +kernel)).2 (by decide +kernel)

end DdlBridge
