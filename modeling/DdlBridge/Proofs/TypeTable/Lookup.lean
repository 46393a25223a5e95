import DdlBridge.Proofs.TypeTable.Readable

/-!
# Types looked up with their parameters

A type whose name is a key of a table is found there with numbers behind its name. Any other text in
its parentheses hides the name: the type is then found only if all of it is a key
(`exists_declares_isSome_translate_iff`).
-/

namespace DdlBridge

open Text Atom Statement Grammar

variable {rules : LexicalRules} {p q w : List Char}

/-! ### Plain texts -/

/-- Numbers or a word. -/
def IsPlainText (q : List Char) : Prop := (∃ ns, q = textOf (numbers ns)) ∨ isWord q = true

theorem isPlainText_of_isPlainParameter (h : isPlainParameter q = true) : IsPlainText q :=
  (isPlainParameter_cases h).imp (fun ⟨ns, hns⟩ => ⟨ns, hns.2⟩) And.left

theorem mem_textOf_numbers {ns : List UInt32} {c : Char} (h : c ∈ textOf (numbers ns)) :
    c = ',' ∨ c.isDigit = true := by
  obtain ⟨a, ha, hc⟩ := List.mem_flatMap.1 h
  rcases mem_numbers ha with rfl | ⟨n, rfl⟩
  · exact .inl (List.mem_singleton.1 hc)
  · rw [text_ofNat_eq] at hc
    exact .inr (digits_spec n hc).1

theorem not_mem_plainText (h : IsPlainText q) {c : Char} (hword : Lexer.continuesWord c = false)
    (hcomma : c ≠ ',') (hdigit : c.isDigit = false) : c ∉ q := by
  intro hmem
  rcases h with ⟨ns, rfl⟩ | hq
  · rcases mem_textOf_numbers hmem with rfl | hc
    · exact hcomma rfl
    · exact absurd (hdigit.symm.trans hc) (by simp)
  · exact absurd (hword.symm.trans (continuesWord_of_isWord hq c hmem)) (by simp)

/-- Letter case does not matter for plain texts. -/
theorem isPlainText_of_lower (h : IsPlainText q) {r : List Char} (hr : lower r = lower q) :
    IsPlainText r := by
  rcases h with ⟨ns, rfl⟩ | hq
  · have halpha : ∀ c ∈ textOf (numbers ns), c.isAlpha = false := by
      intro c hc
      rcases mem_textOf_numbers hc with rfl | hdigit
      · decide
      · exact isAlpha_eq_false_of_isDigit hdigit
    have hself : lower (textOf (numbers ns)) = textOf (numbers ns) := (lower_eq_iff halpha).2 rfl
    exact .inl ⟨ns, (lower_eq_iff halpha).1 (hr.trans hself)⟩
  · refine .inr ?_
    rw [← isWord_lower, hr, isWord_lower, hq]

theorem tokensFrom_blanks {bs : List Char} (hbs : ∀ c ∈ bs, isBlank c = true) (n : Nat)
    (cs : List Char) : Lexer.tokensFrom rules n (bs ++ cs) = Lexer.tokensFrom rules (n + width bs) cs := by
  induction bs generalizing n with
  | nil => rfl
  | cons b bs ih =>
    rw [List.forall_mem_cons] at hbs
    have hwidth : n + width [b] + width bs = n + width (b :: bs) := by
      rw [Nat.add_assoc]
      rfl
    rw [List.cons_append, Lexer.tokensFrom_blank rules n hbs.1, ih hbs.2, hwidth]

/-- Parentheses that close behind the whole text do not close behind a plain text in front of it. -/
theorem not_closes_of_plainText (hq : IsPlainText q) {bs : List Char}
    (hbs : ∀ c ∈ bs, isBlank c = true) (more rest : List Char) :
    ¬ Closes rules (bs ++ (q ++ ')' :: more)) rest := by
  rintro ⟨found, hfound, hoffset⟩
  obtain ⟨inner, rfl, happart, hbalanced, -⟩ := exists_atoms_of_plain rules hq
  obtain ⟨ts, htokens, hclosing⟩ :=
    (closes_of_balanced happart hbalanced (more ++ ')' :: rest)).exists_tokens (width bs)
  have htext : bs ++ (textOf inner ++ ')' :: more) ++ ')' :: rest =
      bs ++ (textOf inner ++ ')' :: (more ++ ')' :: rest)) := by simp
  rw [htext, tokensFrom_blanks hbs, Nat.zero_add, htokens, hclosing] at hfound
  obtain rfl := Option.some.inj hfound
  have hlonger : width bs + width (textOf inner) < width (bs ++ (textOf inner ++ ')' :: more)) := by
    rw [width_append, width_append, width_cons]
    have hsize := Char.utf8Size_pos ')'
    omega
  exact absurd hoffset hlonger.ne

/-! ### Keys -/

namespace TypeTable

/-- A key has its parameters as they are printed, and no serial type is a key. -/
structure IsKey (key : String) : Prop where
  upper : upperWord key = key
  form : IsSizedWord key ∨ '(' ∉ key.toList ∧ key ∉ serialTypes

/-- Every key of every table. -/
theorem isKey_between {source target : Dialect} {table : TypeTable}
    (h : between source target = some table) : ∀ e ∈ table.entries, IsKey e.1 := by
  have hall : ∀ table ∈ between source target, ∀ e ∈ table.entries, isAscii e.1 = true ∧
      Text.upper (asciiChars e.1) = asciiChars e.1 ∧ (isSizedWord (asciiChars e.1) = true ∨
        '(' ∉ asciiChars e.1 ∧ String.ofList (asciiChars e.1) ∉ serialTypes) := by
    cases source <;> cases target <;> decide +kernel
  intro e he
  obtain ⟨hascii, hupper, hform⟩ := hall table h e he
  have hchars := toList_of_isAscii hascii
  refine ⟨?_, ?_⟩
  · rw [upperWord, hchars, hupper, ← hchars, String.ofList_toList]
  · refine hform.imp (isSizedWord_of_ascii hascii) fun hrest => ?_
    rwa [← hchars, String.ofList_toList] at hrest

variable {source target : Dialect} {table : TypeTable} {key : String}

theorem isSome_get?_iff : (table.get? key).isSome = true ↔
    ∃ e ∈ table.entries, sameName e.1 key = true := by
  rw [get?, Option.isSome_map, List.find?_isSome]

theorem isSome_get?_of_mem {e : String × String} (he : e ∈ table.entries) :
    (table.get? e.1).isSome = true :=
  isSome_get?_iff.2 ⟨e, he, beq_self_eq_true _⟩

theorem isSome_translate?_iff {c : Column} : (table.translate? c).isSome = true ↔
    c.fullType ≠ c.dataType ∧ (table.get? c.fullType).isSome = true ∨
      ∃ key ∈ candidates c.dataType, (table.get? key).isSome = true := by
  have hfound : ((candidates c.dataType).findSome? table.get?).isSome = true ↔
      ∃ key ∈ candidates c.dataType, (table.get? key).isSome = true := by
    rw [List.isSome_findSome?, List.any_eq_true]
  rw [translate?, Option.isSome_map, resolve, ← hfound]
  by_cases hfull : c.fullType = c.dataType
  · simp [hfull]
  · cases hget : table.get? c.fullType with
    | none => simp [hfull]
    | some target => simp [hfull]

theorem mem_candidates_self {dataType : String} (h : dataType ≠ "") : dataType ∈ candidates dataType := by
  have hempty : dataType.isEmpty = false := by
    rw [Bool.eq_false_iff, Ne, String.isEmpty_iff]
    exact h
  simp [candidates, hempty]

/-- A name with a parenthesis that is found is a word with plain parameters. -/
theorem exists_plainText_of_get? (htable : between source target = some table)
    (h : (table.get? key).isSome = true) {r : List Char} (hkey : key.toList = w ++ '(' :: r) :
    ∃ q, r = q ++ [')'] ∧ IsPlainText q := by
  obtain ⟨e, he, hsame⟩ := isSome_get?_iff.1 h
  have hlower : lower e.1.toList = lower w ++ '(' :: lower r := by
    have heq : lower e.1.toList = lower key.toList := by simpa [sameName] using hsame
    rw [heq, hkey, lower_append, lower_cons]
    rfl
  have hparen : '(' ∈ e.1.toList := by
    rw [← mem_lower (by decide), hlower]
    exact List.mem_append_right _ List.mem_cons_self
  obtain ⟨w', p', htext, hname, hp⟩ := (isKey_between htable e he).form.resolve_right
    fun hrest => hrest.1 hparen
  have hnot : ∀ {q}, IsPlainText q → '(' ∉ lower q := fun hq => by
    rw [mem_lower (by decide)]
    exact not_mem_plainText hq (by decide) (by decide) (by decide)
  cases p' with
  | none =>
    rw [htext] at hparen
    exact absurd hparen (by
      rw [inParentheses, Option.map_none, Option.getD_none, List.append_nil]
      exact not_mem_plainText (.inr hname.1) (by decide) (by decide) (by decide))
  | some inner =>
    have hplain := isPlainText_of_isPlainParameter (hp inner rfl)
    have hrest : '(' ∉ lower inner ++ [')'] := by simpa using hnot hplain
    have hparts : lower w' ++ '(' :: (lower inner ++ [')']) = lower w ++ '(' :: lower r := by
      rw [← hlower, htext, inParentheses, lower_append]
      simp only [Option.map_some, Option.getD_some, lower_cons, lower_append]
      rfl
    have hinner := ((List.append_cons_inj_of_notMem (hnot (.inr hname.1)) hrest).1 hparts).2.2
    obtain ⟨q, c, rfl⟩ : ∃ q c, r = q ++ [c] := by
      rcases List.eq_nil_or_concat r with rfl | ⟨q, c, hr⟩
      · exact absurd hinner (by simp)
      · exact ⟨q, c, by simpa using hr⟩
    rw [lower_append] at hinner
    obtain ⟨hq, hc⟩ := List.append_inj' hinner rfl
    have hlast : c = ')' := (toLower_eq_iff (by decide)).1 (List.cons.inj hc).1.symm
    exact ⟨q, by rw [hlast], isPlainText_of_lower hplain hq.symm⟩

/-! ### Names with a text in parentheses -/

theorem words_of_not_blank {cs : List Char} (hne : cs ≠ []) (h : ∀ c ∈ cs, isBlank c = false) :
    Text.words cs = [cs] := by
  rw [Text.words, splitAt_of_none h]
  simp [hne]

theorem words_of_blank {cs : List Char} (hne : cs ≠ []) (h : ∀ c ∈ cs, isBlank c = false) {b : Char}
    (hb : isBlank b = true) (rest : List Char) : Text.words (cs ++ b :: rest) = cs :: Text.words rest := by
  rw [Text.words, splitAt_append h hb, List.filter_cons_of_pos (by simpa using hne)]
  rfl

theorem not_blank_or_exists_first (cs : List Char) : (∀ c ∈ cs, isBlank c = false) ∨
    ∃ front b rest, cs = front ++ b :: rest ∧ isBlank b = true ∧ ∀ c ∈ front, isBlank c = false := by
  induction cs with
  | nil => exact .inl fun c hc => absurd hc List.not_mem_nil
  | cons c cs ih =>
    cases hc : isBlank c with
    | true => exact .inr ⟨[], c, cs, rfl, hc, fun d hd => absurd hd List.not_mem_nil⟩
    | false =>
      rcases ih with h | ⟨front, b, rest, rfl, hb, h⟩
      · exact .inl (List.forall_mem_cons.2 ⟨hc, h⟩)
      · exact .inr ⟨c :: front, b, rest, rfl, hb, List.forall_mem_cons.2 ⟨hc, h⟩⟩

/-- Other candidates end at the first blank or go on behind it with one more word. -/
theorem eq_of_mem_candidates {dataType : String}
    (hhead : ∀ c ∈ dataType.toList.head?, isBlank c = false) (h : key ∈ candidates dataType) :
    key = dataType ∨ ∃ cs b rest, dataType.toList = cs ++ b :: rest ∧ isBlank b = true ∧
      (key.toList = cs ∨ ∃ more, key.toList = cs ++ ' ' :: more) := by
  obtain ⟨hmem, hnonempty⟩ := List.mem_filter.1 h
  simp only [List.mem_cons, List.not_mem_nil, or_false] at hmem
  rcases hmem with rfl | hmem
  · exact .inl rfl
  rcases not_blank_or_exists_first dataType.toList with hnone | ⟨cs, b, rest, hparts, hb, hcs⟩
  · by_cases hnil : dataType.toList = []
    · rw [hnil] at hmem
      rcases hmem with rfl | rfl <;> exact absurd hnonempty (by decide)
    · have hself : String.ofList dataType.toList = dataType := String.ofList_toList
      rw [words_of_not_blank hnil hnone] at hmem
      rcases hmem with rfl | rfl <;> exact .inl hself
  · have hne : cs ≠ [] := by
      rintro rfl
      have hnot := hhead b (by rw [hparts]; rfl)
      exact absurd (hnot.symm.trans hb) (by simp)
    rw [hparts, words_of_blank hne hcs hb] at hmem
    refine .inr ⟨cs, b, rest, hparts, hb, ?_⟩
    rcases hmem with rfl | rfl
    · cases Text.words rest with
      | nil => exact .inl String.toList_ofList
      | cons more _ =>
        refine .inr ⟨more, ?_⟩
        show (String.ofList cs ++ " " ++ String.ofList more).toList = _
        simp [String.toList_append]
    · exact .inl String.toList_ofList

/-- A blank behind a word stands behind the parenthesis that follows it. -/
theorem exists_of_blank_behind (hw : isWord w = true) {b : Char} (hb : isBlank b = true)
    {cs more : List Char} (h : w ++ '(' :: q = cs ++ b :: more) :
    ∃ r, cs = w ++ '(' :: r ∧ q = r ++ b :: more := by
  have hopen : ∀ {rest rest'}, '(' :: rest ≠ b :: rest' := by
    rintro rest rest' heq
    obtain ⟨rfl, -⟩ := List.cons.inj heq
    exact absurd hb (by decide)
  rcases List.append_eq_append_iff.1 h with ⟨m, rfl, hm⟩ | ⟨m, rfl, hm⟩
  · cases m with
    | nil => exact absurd hm hopen
    | cons c r =>
      obtain ⟨rfl, hr⟩ := List.cons.inj hm
      exact ⟨r, rfl, hr⟩
  · cases m with
    | nil => exact absurd hm.symm hopen
    | cons c m =>
      obtain ⟨rfl, -⟩ := List.cons.inj hm
      have hnot := not_blank_of_isWord hw b (by simp)
      exact absurd (hnot.symm.trans hb) (by simp)

/-- A type with a text in parentheses is found only as a whole. -/
theorem eq_of_get?_parenthesized (htable : between source target = some table)
    (hw : isWord w = true) {rest : List Char} (hcloses : Closes rules p rest) {dataType : String}
    (htext : dataType.toList = w ++ '(' :: (trim p ++ [')'])) (hkey : key ∈ candidates dataType)
    (h : (table.get? key).isSome = true) : key = dataType := by
  have hhead : ∀ c ∈ dataType.toList.head?, isBlank c = false := by
    obtain ⟨c, cs, rfl, -⟩ := isWord_cases hw
    intro e he
    rw [htext] at he
    obtain rfl := Option.some.inj he
    exact not_blank_of_isWord hw _ List.mem_cons_self
  rcases eq_of_mem_candidates hhead hkey with heq | ⟨cs, b, more, hparts, hb, hform⟩
  · exact heq
  exfalso
  obtain ⟨r, rfl, hr⟩ := exists_of_blank_behind hw hb (htext.symm.trans hparts)
  rcases hform with hcut | ⟨word, hcut⟩
  · -- a key that ends at the blank has closed its parentheses there, in front of the real end
    obtain ⟨q, rfl, hq⟩ := exists_plainText_of_get? htable h hcut
    obtain ⟨tail, rfl⟩ : ∃ tail, more = tail ++ [')'] := by
      rcases List.eq_nil_or_concat more with rfl | ⟨tail, c, hmore⟩
      · have hlast := (List.append_inj' hr rfl).2
        obtain rfl := (List.cons.inj hlast).1
        exact absurd hb (by decide)
      · rw [List.concat_eq_append] at hmore
        rw [hmore, ← List.cons_append, ← List.append_assoc] at hr
        exact ⟨tail, by rw [hmore, ← (List.append_inj' hr rfl).2]⟩
    have htrim : trim p = q ++ ')' :: b :: tail := by
      rw [← List.cons_append, ← List.append_assoc] at hr
      rw [(List.append_inj' hr rfl).1, List.append_assoc]
      rfl
    obtain ⟨bs, back, hbs, hp⟩ := exists_blanks_trim p
    rw [htrim, List.append_assoc, List.cons_append] at hp
    rw [hp] at hcloses
    exact not_closes_of_plainText hq hbs _ _ hcloses
  · -- a key that goes on behind it has a blank between its parentheses
    rw [List.append_assoc, List.cons_append] at hcut
    obtain ⟨q, hrest, hq⟩ := exists_plainText_of_get? htable h hcut
    have hmem : ' ' ∈ q ++ [')'] := by
      rw [← hrest]
      exact List.mem_append_right r List.mem_cons_self
    have hnot := not_mem_plainText hq (c := ' ') (by decide) (by decide) (by decide)
    simp [hnot] at hmem

/-- A key that is one word is read as a type, or as an interval. -/
theorem isTypeName_of_isKey (h : IsKey key) (hword : isWordText key = true)
    (hinterval : key ≠ "INTERVAL") : IsTypeName key.toList := by
  have hname : String.ofList (Text.upper key.toList) = key := h.upper
  rcases h.form with ⟨w, p, htext, hw, -⟩ | ⟨-, hserial⟩
  · cases p with
    | none => rwa [htext, inParentheses, Option.map_none, Option.getD_none, List.append_nil]
    | some q =>
      have hparen : '(' ∈ key.toList := by
        rw [htext]
        exact List.mem_append_right w List.mem_cons_self
      exact absurd hparen (not_mem_plainText (.inr hword) (by decide) (by decide) (by decide))
  · refine ⟨hword, ?_⟩
    rw [hname, List.mem_cons, not_or]
    exact ⟨hinterval, hserial⟩

end TypeTable

/-! ### Columns with parameters -/

/-- Whether the parameters of a type are numbers that have fields of their own. -/
def hasFields (name : String) (text : List Char) : Bool :=
  match (Text.splitAt (· == ',') text).mapM typeParameter? with
  | some [_] => true
  | some [_, _] => name ∈ numericTypes
  | _ => false

/-- Parameters with fields leave the name alone, and others stay behind it. -/
theorem dataType_withParameters {c : Column} (h : c.Bare) (text : List Char) :
    (hasFields c.dataType text = true ∧ (withParameters c text).dataType = c.dataType) ∨
      hasFields c.dataType text = false ∧ (withParameters c text).sizes = [] ∧
        (withParameters c text).dataType = c.dataType ++ "(" ++ String.ofList (trim text) ++ ")" := by
  cases parameterCase c text with
  | precision n hread _ heq => exact .inl ⟨by rw [hasFields, hread], by rw [heq]⟩
  | length n hread _ heq => exact .inl ⟨by rw [hasFields, hread], by rw [heq]⟩
  | scaled p s hread hnumeric heq =>
    refine .inl ⟨?_, by rw [heq]⟩
    rw [hasFields, hread]
    exact decide_eq_true hnumeric
  | kept hone htwo heq =>
    refine .inr ⟨?_, ?_, by rw [heq]⟩
    · unfold hasFields
      split
      case h_1 n hread => exact absurd hread (hone n)
      case h_2 p s hread => exact decide_eq_false (htwo p s hread)
      case h_3 => rfl
    · rw [heq, Column.sizes_eq_nil_iff]
      exact ⟨h.length, h.precision⟩

variable {source target : Dialect} {table : TypeTable} {e : String × String}

/-- A column that keeps the name of a key is translated. -/
theorem isSome_translate?_of_dataType (he : e ∈ table.entries) (hword : isWordText e.1 = true)
    {c : Column} (h : c.dataType = e.1) : (table.translate? c).isSome = true := by
  have hne : e.1 ≠ "" := by
    intro heq
    rw [heq] at hword
    exact absurd hword (by decide)
  refine TypeTable.isSome_translate?_iff.2 (.inr ⟨e.1, ?_, TypeTable.isSome_get?_of_mem he⟩)
  rw [h]
  exact TypeTable.mem_candidates_self hne

/-- A name is declared with any text in parentheses that stands there as it does alone. -/
theorem declares_parenthesized {d : Dialect} {name : String} (hname : IsTypeName name.toList)
    (hupper : upperWord name = name) (hcloses : Closes d.rules p [')'])
    (hunbroken : Unbroken d.rules (textOf declarationHead ++ (name.toList ++ ['('])) p) :
    Declares d (name ++ "(" ++ String.ofList p ++ ")") true
      { withParameters { name := "x", dataType := name } (trim p) with nullable := true } := by
  have htype : (name ++ "(" ++ String.ofList p ++ ")").toList =
      (TypeText.ofWord name.toList (some p)).text := by
    rw [TypeText.text_ofWord]
    simp [String.toList_append, inParentheses]
  have hfront : (TypeText.ofWord name.toList (some p)).front = [word name.toList] := by
    show [word (String.ofList name.toList).toList] = _
    rw [String.ofList_toList]
  have hlegible : (TypeText.ofWord name.toList (some p)).Legible d true := by
    refine ⟨fun q hq => ?_, fun q hq => ?_, fun hne => absurd rfl hne⟩
    · obtain rfl := Option.some.inj hq
      exact hcloses
    · obtain rfl := Option.some.inj hq
      have htext : Atom.textOf [word name.toList, punct '('] = name.toList ++ ['('] := rfl
      rw [hfront, Atom.textOf_append, List.singleton_append, htext]
      exact hunbroken
  have hcolumn : (TypeText.ofWord name.toList (some p)).column "x" =
      withParameters { name := "x", dataType := name } (trim p) := by
    have hsized : (TypeText.ofWord name.toList (some p)).sized "x" = withParameters
        { name := "x", dataType := (TypeText.ofWord name.toList (some p)).words } (trim p) := rfl
    rw [TypeText.column_ofWord, hsized, TypeText.words_ofWord]
    exact congrArg (fun dataType => withParameters { name := "x", dataType } (trim p)) hupper
  have hdeclares := declares_of_text (TypeText.formed_ofWord hname _)
    (TypeText.not_serial_ofWord hname _ "x") hlegible htype
  rwa [hcolumn] at hdeclares

/-- A column that keeps the text of its parameters is looked up with them. -/
theorem isSome_translate?_of_kept (htable : TypeTable.between source target = some table)
    {name : String} (hname : isWord name.toList = true) {rest : List Char}
    (hcloses : Closes source.rules p rest) {c : Column} (hsizes : c.sizes = [])
    (hdata : c.dataType = name ++ "(" ++ String.ofList (trim p) ++ ")") :
    (table.translate? c).isSome = true ↔ (table.get? c.dataType).isSome = true := by
  have hparts : c.dataType.toList = name.toList ++ '(' :: (trim p ++ [')']) := by
    rw [hdata]
    simp [String.toList_append]
  have hne : c.dataType ≠ "" := by
    intro heq
    rw [heq] at hparts
    exact absurd hparts (by simp)
  rw [TypeTable.isSome_translate?_iff, (fullType_eq_iff c).2 hsizes]
  constructor
  · rintro (⟨hdiffers, -⟩ | ⟨key, hmem, hfound⟩)
    · exact absurd rfl hdiffers
    · exact TypeTable.eq_of_get?_parenthesized htable hname hcloses hparts hmem hfound ▸ hfound
  · exact fun hfound => .inr ⟨_, TypeTable.mem_candidates_self hne, hfound⟩

/-- A column that is declared with the name of a key and parameters is translated if the parameters
are numbers with fields of their own, if it is an interval or if the key has them as well. -/
theorem exists_declares_isSome_translate_iff (htable : TypeTable.between source target = some table)
    (he : e ∈ table.entries) (hword : isWordText e.1 = true) {p : List Char}
    (hcloses : Closes source.rules p [')'])
    (hunbroken : Unbroken source.rules ("CREATE TABLE t (x ".toList ++ (e.1.toList ++ ['('])) p) :
    ∃ c, Declares source (e.1 ++ "(" ++ String.ofList p ++ ")") true c ∧
      ((table.translate? c).isSome = true ↔ hasFields e.1 (trim p) = true ∨ e.1 = "INTERVAL" ∨
        (table.get? (e.1 ++ "(" ++ String.ofList (trim p) ++ ")")).isSome = true) := by
  have hhead : "CREATE TABLE t (x ".toList = textOf declarationHead := by decide +kernel
  have hkey := TypeTable.isKey_between htable e he
  rw [hhead] at hunbroken
  by_cases hinterval : e.1 = "INTERVAL"
  case pos =>
    have htype : (e.1 ++ "(" ++ String.ofList p ++ ")").toList = e.1.toList ++ '(' :: (p ++ [')']) := by
      simp [String.toList_append]
    have hparse := @parseScript_of_intervalParameters _ true _ (hkey.upper.trans hinterval)
      hword _ hcloses hunbroken
    rw [← htype] at hparse
    refine ⟨_, declares_of_parseScript hparse, iff_of_true ?_ (.inr (.inl hinterval))⟩
    exact isSome_translate?_of_dataType he hword hinterval.symm
  case neg =>
    have hname := TypeTable.isTypeName_of_isKey hkey hword hinterval
    have hbare : ({ name := "x", dataType := e.1 } : Column).Bare := ⟨rfl, rfl, rfl⟩
    refine ⟨_, declares_parenthesized hname hkey.upper hcloses hunbroken, ?_⟩
    rcases dataType_withParameters hbare (trim p) with ⟨hfields, hsame⟩ | ⟨hfields, hsizes, hkept⟩
    · exact iff_of_true (isSome_translate?_of_dataType he hword hsame) (.inl hfields)
    · rw [trim_trim] at hkept
      generalize hc : ({ withParameters { name := "x", dataType := e.1 } (trim p) with
        nullable := true } : Column) = c
      have hdata : c.dataType = e.1 ++ "(" ++ String.ofList (trim p) ++ ")" := hc ▸ hkept
      have hnil : c.sizes = [] := hc ▸ hsizes
      rw [isSome_translate?_of_kept htable hname.1 hcloses hnil hdata, hdata, hfields]
      simp [hinterval]

theorem exists_declares_isSome_translate_iff_two_keys :
    let table : TypeTable := ⟨TypeTable.mysqlToPostgres⟩
    (("ENUM", "varchar(255)") ∈ table.entries ∧ isWordText "ENUM" = true ∧
        Closes Dialect.mysql.rules "'a','b'".toList [')'] ∧
        Unbroken Dialect.mysql.rules "CREATE TABLE t (x ENUM(".toList "'a','b'".toList ∧
      ∃ c, Declares .mysql "ENUM('a','b')" true c ∧ (table.translate? c).isSome = false) ∧
    ("DECIMAL", "numeric") ∈ table.entries ∧ isWordText "DECIMAL" = true ∧
        Closes Dialect.mysql.rules "10, 2".toList [')'] ∧
        Unbroken Dialect.mysql.rules "CREATE TABLE t (x DECIMAL(".toList "10, 2".toList ∧
      ∃ c, Declares .mysql "DECIMAL(10, 2)" true c ∧ (table.translate? c).isSome = true := by
  have henum : "ENUM" ++ "(" ++ String.ofList "'a','b'".toList ++ ")" = "ENUM('a','b')" := by
    decide +kernel
  have hdecimal : "DECIMAL" ++ "(" ++ String.ofList "10, 2".toList ++ ")" = "DECIMAL(10, 2)" := by
    decide +kernel
  refine ⟨⟨by decide +kernel, by decide +kernel, by decide +kernel, by decide +kernel, ?_⟩,
    by decide +kernel, by decide +kernel, by decide +kernel, by decide +kernel, ?_⟩
  · obtain ⟨c, hc, hiff⟩ := @exists_declares_isSome_translate_iff .mysql .postgres _
      ("ENUM", "varchar(255)") rfl (by decide +kernel) (by decide +kernel) "'a','b'".toList
      (by decide +kernel) (by decide +kernel)
    dsimp only at hc
    rw [henum] at hc
    exact ⟨c, hc, Bool.eq_false_iff.2 (hiff.not.2 (by decide +kernel))⟩
  · obtain ⟨c, hc, hiff⟩ := @exists_declares_isSome_translate_iff .mysql .postgres _
      ("DECIMAL", "numeric") rfl (by decide +kernel) (by decide +kernel) "10, 2".toList
      (by decide +kernel) (by decide +kernel)
    dsimp only at hc
    rw [hdecimal] at hc
    exact ⟨c, hc, hiff.2 (by decide +kernel)⟩

end DdlBridge
