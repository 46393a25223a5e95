import DdlBridge.Grammar.Column
import DdlBridge.Proofs.Grammar.Phrase

/-!
# Reading columns

A column is a name, a type of one word and clauses. Each clause changes the column in its own way
(`reads_clause`), so a row of them changes it one by one (`reads_columnDefinition`).
-/

namespace DdlBridge

open Text Atom Ddl DdlBridge.Parser DdlBridge.Grammar

variable {d : Dialect} {more : List Atom}

/-! ### What follows -/

/-- The words that may follow a column type. -/
def typeFollowers : List String := "DEFAULT" :: columnKeywords

theorem isWord_of_keyword_ne {t : Token} {w : String} (hupper : String.ofList (upper w.toList) = w)
    (h : t.keyword ≠ w) : t.isWord w = false := by
  rw [Token.isWord, Bool.and_eq_false_iff]
  refine (Bool.eq_false_or_eq_true (t.kind == .word)).symm.imp_right fun hkind => ?_
  refine beq_eq_false_iff_ne.2 fun heq => h ?_
  rw [Token.keyword, if_pos (beq_iff_eq.1 hkind), heq, hupper]

/-- What follows ends a column type. -/
def EndsType (t : Token) : Prop := endsElement t = true ∨ t.keyword ∈ typeFollowers

/-- What follows ends an element of a table. -/
abbrev EndsElement (t : Token) : Prop := endsElement t = true

theorem keyword_of_isPunct {t : Token} {c : Char} (h : t.isPunct c = true) : t.keyword = "" := by
  simp only [Token.isPunct, Bool.and_eq_true, beq_iff_eq] at h
  rw [Token.keyword, h.1]
  rfl

theorem keyword_of_endsElement {t : Token} (h : endsElement t = true) : t.keyword = "" := by
  simp only [endsElement, Bool.or_eq_true] at h
  rcases h with h | h
  · exact keyword_of_isPunct h
  · exact keyword_of_isPunct h

theorem isPunct_of_endsElement {t : Token} (h : endsElement t = true) {c : Char}
    (hc : c ∉ [',', ')']) : t.isPunct c = false := by
  simp only [List.mem_cons, List.not_mem_nil, or_false, not_or] at hc
  simp only [endsElement, Token.isPunct, Bool.or_eq_true, Bool.and_eq_true, beq_iff_eq] at h
  rw [Token.isPunct, Bool.and_eq_false_iff]
  refine .inr (beq_eq_false_iff_ne.2 fun heq => ?_)
  rcases h with ⟨-, h⟩ | ⟨-, h⟩
  · exact hc.1 (Option.some.inj (heq.symm.trans h))
  · exact hc.2 (Option.some.inj (heq.symm.trans h))

theorem isPunct_of_keyword {t : Token} (h : t.keyword ≠ "") (c : Char) : t.isPunct c = false := by
  rw [Bool.eq_false_iff]
  exact fun hpunct => h (keyword_of_isPunct hpunct)

namespace EndsType

variable {t : Token} (h : EndsType t)

include h

theorem isPunct {c : Char} (hc : c ∉ [',', ')']) : t.isPunct c = false := by
  rcases h with h | h
  · exact isPunct_of_endsElement h hc
  · refine isPunct_of_keyword (fun heq => ?_) c
    rw [heq] at h
    exact absurd h (by decide)

/-- What ends a type is none of the words that a parser may take there. -/
theorem keyword_not_mem {ws : List String} (hws : ws.all (fun w => w != "" && w ∉ typeFollowers)) :
    t.keyword ∉ ws := by
  intro hmem
  have hw := List.all_eq_true.1 hws _ hmem
  simp only [Bool.and_eq_true, bne_iff_ne, decide_eq_true_eq] at hw
  rcases h with h | h
  · exact hw.1 (keyword_of_endsElement h)
  · exact hw.2 h

end EndsType

theorem Parser.EndsDefault.endsType {t : Token} (h : EndsDefault t) : EndsType t :=
  h.imp_right (List.mem_cons_of_mem _)

/-! ### Types -/

def serialTypes : List String :=
  ["SERIAL", "SERIAL4", "BIGSERIAL", "SERIAL8", "SMALLSERIAL", "SERIAL2"]

/-- An upper-case ASCII letter, a digit or an underscore. -/
def isTypeChar (c : Char) : Bool := c.isUpper || c.isDigit || c == '_'

/-- At least two such characters, a letter first. -/
def isTypeWord (w : String) : Bool :=
  match w.toList with
  | c :: e :: cs => c.isUpper && (e :: cs).all isTypeChar
  | _ => false

/-- A column type of one word. -/
structure PlainType (w : String) : Prop where
  word : isTypeWord w = true
  not_mem : w ∉ "CASE" :: "INTERVAL" :: serialTypes

instance (w : String) : Decidable (PlainType w) :=
  decidable_of_iff (isTypeWord w = true ∧ w ∉ "CASE" :: "INTERVAL" :: serialTypes)
    ⟨fun h => ⟨h.1, h.2⟩, fun h => ⟨h.word, h.not_mem⟩⟩

/-- The parameters of a column type. -/
def Column.parameters (c : Column) : List UInt32 :=
  c.length.toList ++ c.precision.toList ++ c.scale.toList

/-- Numeric types have a precision and a scale, and others a length. -/
def Column.Parametrized (c : Column) : Prop :=
  if c.dataType ∈ numericTypes then c.length = none ∧ (c.scale.isSome → c.precision.isSome)
  else c.precision = none ∧ c.scale = none

instance (c : Column) : Decidable c.Parametrized :=
  inferInstanceAs (Decidable (ite _ _ _))

/-- Numbers with commas between them. -/
def Atom.numbers : List UInt32 → List Atom
  | [] => []
  | n :: ns => ofNat n.toNat :: ns.flatMap fun n => [punct ',', ofNat n.toNat]

/-- Numbers in parentheses, unless there are none. -/
def Atom.parameters (ns : List UInt32) : List Atom :=
  if ns.isEmpty then [] else punct '(' :: (numbers ns ++ [punct ')'])

def Column.typeAtoms (c : Column) : List Atom :=
  word c.dataType.toList :: Atom.parameters c.parameters

theorem isTypeWord_cases {w : String} (h : isTypeWord w = true) : ∃ c e cs, w.toList = c :: e :: cs ∧
    c.isUpper = true ∧ ∀ b ∈ e :: cs, isTypeChar b = true := by
  unfold isTypeWord at h
  split at h
  case h_1 c e cs heq =>
    rw [Bool.and_eq_true, List.all_eq_true] at h
    exact ⟨c, e, cs, heq, h.1, h.2⟩
  case h_2 => exact absurd h (by simp)

theorem lt_of_isTypeChar {c : Char} (h : isTypeChar c = true) : c.toNat < 128 := by
  rcases Nat.lt_or_ge c.toNat 128 with hlt | hge
  · exact hlt
  · have hupper : c.isUpper = false := Bool.eq_false_iff.2 fun hupper =>
      Bool.false_ne_true ((isAlpha_eq_false hge).symm.trans (isAlpha_of_isUpper hupper))
    have hunder : c ≠ '_' := Statement.ne_of_le_toNat hge (by decide)
    simp [isTypeChar, hupper, isDigit_eq_false hge, hunder] at h

/-- Type characters go on with a word and have no lower case. -/
theorem typeChar_spec {c : Char} (h : isTypeChar c = true) :
    c.toUpper = c ∧ Lexer.continuesWord c = true := by
  refine of_ascii (fun d => isTypeChar d = true → d.toUpper = d ∧ Lexer.continuesWord d = true) ?_
    (lt_of_isTypeChar h) h
  decide +kernel

theorem startsWord_of_isUpper {c : Char} (h : c.isUpper = true) : Lexer.startsWord c = true := by
  have hlt : c.toNat < 128 := lt_of_isTypeChar (by simp [isTypeChar, h])
  simp [Lexer.startsWord, isLetter_of_lt hlt, isAlpha_of_isUpper h]

theorem formed_typeWord (rules : LexicalRules) {w : String} (h : isTypeWord w = true) :
    (word w.toList).Formed rules := by
  obtain ⟨c, e, cs, hw, hc, hcs⟩ := isTypeWord_cases h
  rw [hw]
  exact .word (startsWord_of_isUpper hc) fun b hb => (typeChar_spec (hcs b hb)).2

theorem upper_typeWord {w : String} (h : isTypeWord w = true) : upper w.toList = w.toList := by
  obtain ⟨c, e, cs, hw, hc, hcs⟩ := isTypeWord_cases h
  rw [hw, upper]
  have hall : ∀ b ∈ c :: e :: cs, b.toUpper = b := by
    intro b hb
    rcases List.mem_cons.1 hb with rfl | hb
    · exact (typeChar_spec (by simp [isTypeChar, hc])).1
    · exact (typeChar_spec (hcs b hb)).1
  exact (List.map_congr_left hall).trans (List.map_id _)

theorem keyword_typeWord {w : String} (h : isTypeWord w = true) (n : Nat) :
    (⟨.word, w.toList, n⟩ : Token).keyword = w := by
  show String.ofList (upper w.toList) = w
  rw [upper_typeWord h, String.ofList_toList]

/-! ### Parameters -/

theorem trim_of_not_blank {cs : List Char} (h : ∀ c ∈ cs, isBlank c = false) : trim cs = cs := by
  have hdrop : ∀ cs : List Char, (∀ c ∈ cs, isBlank c = false) → cs.dropWhile isBlank = cs := by
    intro cs hcs
    cases cs with
    | nil => rfl
    | cons c cs => exact List.dropWhile_cons_of_neg (by rw [hcs c List.mem_cons_self]; simp)
  rw [trim, trimStart, hdrop cs h, trimEnd, hdrop _ fun c hc => h c (List.mem_reverse.1 hc),
    List.reverse_reverse]

theorem splitAt_of_none {p : Char → Bool} {cs : List Char} (h : ∀ c ∈ cs, p c = false) :
    Text.splitAt p cs = [cs] := by
  induction cs with
  | nil => rfl
  | cons c cs ih =>
    rw [List.forall_mem_cons] at h
    rw [Text.splitAt, h.1, if_neg (by simp), ih h.2]

theorem splitAt_append {p : Char → Bool} {cs : List Char} (h : ∀ c ∈ cs, p c = false) {c : Char}
    (hc : p c = true) (rest : List Char) :
    Text.splitAt p (cs ++ c :: rest) = cs :: Text.splitAt p rest := by
  induction cs with
  | nil => rw [List.nil_append, Text.splitAt, if_pos hc]
  | cons b cs ih =>
    rw [List.forall_mem_cons] at h
    rw [List.cons_append, Text.splitAt, h.1, if_neg (by simp), ih h.2]

theorem digit_spec {c : Char} (h : c.isDigit = true) : isBlank c = false ∧ (c == ',') = false := by
  have hall : ∀ e : Char, e.isDigit = false → c ≠ e := by
    rintro e he rfl
    rw [he] at h
    exact absurd h (by simp)
  exact ⟨not_blank_of_word (.inr h), beq_eq_false_iff_ne.2 (hall ',' (by decide))⟩

theorem digits_spec (n : Nat) {c : Char} (h : c ∈ Nat.toDigits 10 n) :
    c.isDigit = true ∧ isBlank c = false ∧ (c == ',') = false := by
  have hdigit := Nat.isDigit_of_mem_toDigits (by decide) (by decide) h
  exact ⟨hdigit, digit_spec hdigit⟩

theorem typeParameter?_toDigits (n : UInt32) : typeParameter? (Nat.toDigits 10 n.toNat) = some n := by
  have hwords : Text.words (Nat.toDigits 10 n.toNat) = [Nat.toDigits 10 n.toNat] := by
    rw [Text.words, splitAt_of_none fun c hc => (digits_spec _ hc).2.1]
    simp [Nat.toDigits_ne_nil]
  have hsign : (Nat.toDigits 10 n.toNat).head? ≠ some '+' := by
    intro hhead
    have hdigit := (digits_spec _ (List.mem_of_head? hhead)).1
    exact absurd hdigit (by decide)
  rw [typeParameter?, hwords]
  dsimp only
  rw [parameter?, if_neg hsign, natural?_toDigits, Option.bind_some, if_pos n.toNat_lt_size,
    UInt32.ofNat_toNat]

theorem textOf_numbers_one (n : UInt32) : textOf (numbers [n]) = Nat.toDigits 10 n.toNat := by
  rw [numbers, textOf_cons, text_ofNat_eq]
  exact List.append_nil _

theorem textOf_numbers_two (n m : UInt32) : textOf (numbers [n, m]) =
    Nat.toDigits 10 n.toNat ++ ',' :: Nat.toDigits 10 m.toNat := by
  rw [numbers, textOf_cons, text_ofNat_eq, ← text_ofNat_eq m.toNat]
  exact congrArg (fun cs => _ ++ ',' :: cs) (List.append_nil _)

theorem mem_numbers {ns : List UInt32} {a : Atom} (h : a ∈ numbers ns) :
    a = punct ',' ∨ ∃ n, a = ofNat n := by
  cases ns with
  | nil => exact absurd h (by simp [numbers])
  | cons n ns =>
    rcases List.mem_cons.1 h with rfl | h
    · exact .inr ⟨_, rfl⟩
    · obtain ⟨m, -, hm⟩ := List.mem_flatMap.1 h
      simp only [List.mem_cons, List.not_mem_nil, or_false] at hm
      exact hm.imp_right fun hm => ⟨_, hm⟩

theorem balanced_numbers (ns : List UInt32) : Balanced (numbers ns) := by
  have hnot : ∀ c, c ≠ ',' → punct c ∉ numbers ns := by
    intro c hc hmem
    rcases mem_numbers hmem with heq | ⟨n, heq⟩
    · exact hc (Atom.punct.inj heq)
    · exact absurd heq (by simp [ofNat])
  exact balanced_of_not_mem (hnot '(' (by decide)) (hnot ')' (by decide))

theorem trim_numbers (ns : List UInt32) : trim (textOf (numbers ns)) = textOf (numbers ns) := by
  refine trim_of_not_blank fun c hc => ?_
  obtain ⟨a, ha, hc⟩ := List.mem_flatMap.1 hc
  rcases mem_numbers ha with rfl | ⟨n, rfl⟩
  · rw [text, List.mem_singleton] at hc
    subst hc
    decide
  · rw [text_ofNat_eq] at hc
    exact (digits_spec n hc).2.1

/-- What the type of a column says. -/
def Column.typed (c : Column) : Column :=
  { name := c.name, dataType := c.dataType, length := c.length, precision := c.precision,
    scale := c.scale }

theorem mapM_typeParameter?_numbers {ns : List UInt32} (h : ns ≠ []) :
    (Text.splitAt (· == ',') (textOf (numbers ns))).mapM typeParameter? = some ns := by
  obtain ⟨n, ns, rfl⟩ := List.exists_cons_of_ne_nil h
  clear h
  induction ns generalizing n with
  | nil =>
    rw [textOf_numbers_one, splitAt_of_none fun c hc => (digits_spec _ hc).2.2]
    simp [typeParameter?_toDigits]
  | cons m ns ih =>
    have htext : textOf (numbers (n :: m :: ns)) =
        Nat.toDigits 10 n.toNat ++ ',' :: textOf (numbers (m :: ns)) := by
      rw [← text_ofNat_eq]
      rfl
    rw [htext, splitAt_append (fun c hc => (digits_spec _ hc).2.2) (by rfl), List.mapM_cons,
      typeParameter?_toDigits, ih m]
    rfl

theorem withParameters_numbers {c : Column} (h : c.Parametrized) (hne : c.parameters ≠ []) :
    withParameters { name := c.name, dataType := c.dataType } (textOf (numbers c.parameters)) =
      c.typed := by
  have hread := mapM_typeParameter?_numbers hne
  obtain ⟨name, dataType, length, precision, scale⟩ := c
  unfold Column.Parametrized at h
  unfold withParameters
  rw [hread]
  by_cases hnumeric : dataType ∈ numericTypes
  · rw [if_pos hnumeric] at h
    obtain ⟨rfl, hscale⟩ := h
    simp only [hnumeric, decide_true]
    cases precision with
    | none =>
      cases scale with
      | none => exact absurd rfl hne
      | some s => exact absurd (hscale rfl) (by simp)
    | some p => cases scale <;> rfl
  · rw [if_neg hnumeric] at h
    obtain ⟨rfl, rfl⟩ := h
    simp only [hnumeric, decide_false]
    cases length with
    | none => exact absurd rfl hne
    | some n => rfl

/-! ### Column types -/

theorem continuesType_eq_false (last : String) {next : String}
    (h : next ∉ ["PRECISION", "VARYING", "CHARACTER", "CHAR", "RAW", "VARCHAR"]) :
    continuesType last next = false := by
  simp only [List.mem_cons, List.not_mem_nil, or_false, not_or] at h
  obtain ⟨hprecision, hvarying, hcharacter, hchar, hraw, hvarchar⟩ := h
  unfold continuesType
  split
  all_goals first
    | rfl
    | exact absurd rfl ‹_›

theorem withoutSerial_of_not_mem {c : Column} (h : c.dataType ∉ serialTypes) : withoutSerial c = c := by
  simp only [serialTypes, List.mem_cons, List.not_mem_nil, or_false, not_or] at h
  obtain ⟨h1, h2, h3, h4, h5, h6⟩ := h
  unfold withoutSerial
  split
  all_goals first
    | rfl
    | exact absurd ‹_› ‹_›

theorem keyword_head?_of_follows {ws : List String} (h : Follows (·.keyword ∉ ws) more)
    (hempty : "" ∉ ws) (n : Nat) :
    ((place n more).head?.map (·.keyword)).getD "" ∉ ws := by
  have hn := h n
  cases hhead : (place n more).head? with
  | none => exact hempty
  | some t =>
    rw [hhead] at hn
    exact hn t rfl

theorem reads_typeWord_none (ws : List String) (h : Follows
    (·.keyword ∉ ["PRECISION", "VARYING", "CHARACTER", "CHAR", "RAW", "VARCHAR"]) more) :
    Reads d (typeWord ws) [] none more := by
  refine Reads.peekKeyword fun n => ?_
  have hnext := keyword_head?_of_follows h (by decide) n
  rw [List.nil_append, continuesType_eq_false _ hnext]
  exact Reads.pure none more

theorem reads_timeZone_none (c : Column) (h : Follows (·.keyword ∉ ["WITH", "WITHOUT"]) more) :
    Reads d (timeZone c) [] c more := by
  refine Reads.peekKeyword fun n => ?_
  have hnext := keyword_head?_of_follows h (by decide) n
  simp only [List.mem_cons, List.not_mem_nil, or_false] at hnext
  dsimp only
  rw [List.nil_append, if_neg fun hword => hnext hword.1]
  exact Reads.pure c more

theorem reads_signedness_none (c : Column)
    (h : Follows (·.keyword ∉ ["UNSIGNED", "SIGNED", "ZEROFILL"]) more) :
    Reads d (signedness c) [] none more :=
  Reads.bind_nil (reads_eatAny_none h) (Reads.pure none more)

theorem reads_arrayBrackets_none (c : Column) (h : Follows (·.isPunct '[' = false) more) :
    Reads d (arrayBrackets c) [] none more :=
  Reads.bind_nil (reads_eatPunct_none h) (Reads.pure none more)

theorem typed_of_parameters_nil {c : Column} (h : c.parameters = []) :
    c.typed = { name := c.name, dataType := c.dataType } := by
  simp only [Column.parameters, List.append_eq_nil_iff, Option.toList_eq_nil_iff] at h
  simp only [Column.typed, h.1.1, h.1.2, h.2]

/-- A type without words, signs and brackets behind it. -/
theorem reads_suffixes_none {c : Column} (hserial : c.dataType ∉ serialTypes)
    (h : Follows EndsType more) : Reads d (do
      let column ← timeZone c
      let column ← many signedness column
      let column ← many arrayBrackets column
      return withoutSerial column) [] c more := by
  refine Reads.bind_nil
    (reads_timeZone_none c (h.imp fun t ht => ht.keyword_not_mem (by decide))) ?_
  refine Reads.bind_nil (Reads.many_nil
    (reads_signedness_none c (h.imp fun t ht => ht.keyword_not_mem (by decide)))) ?_
  refine Reads.bind_nil (Reads.many_nil
    (reads_arrayBrackets_none c (h.imp fun t ht => ht.isPunct (by decide)))) ?_
  rw [withoutSerial_of_not_mem hserial]
  exact Reads.pure _ more

theorem follows_parameters (ns : List UInt32) (h : Follows EndsType more) : Follows
    (·.keyword ∉ ["PRECISION", "VARYING", "CHARACTER", "CHAR", "RAW", "VARCHAR"])
    (Atom.parameters ns ++ more) := by
  unfold Atom.parameters
  split
  · exact h.imp fun t ht => ht.keyword_not_mem (by decide)
  · exact follows_punct (fun _ => (by decide : "" ∉ _)) _

theorem reads_columnType {c : Column} (htype : PlainType c.dataType) (hparams : c.Parametrized)
    (h : Follows EndsType more) : Reads d (columnType c.name) c.typeAtoms c.typed more := by
  have hkeyword : ∀ n, (⟨.word, c.dataType.toList, n⟩ : Token).keyword = c.dataType :=
    keyword_typeWord htype.word
  have hnot := htype.not_mem
  simp only [List.mem_cons, not_or] at hnot
  obtain ⟨-, hinterval, hserial⟩ := hnot
  have hwords : Reads d (many typeWord [c.dataType]) [] [c.dataType]
      (Atom.parameters c.parameters ++ more) :=
    Reads.many_nil (reads_typeWord_none _ (follows_parameters _ h))
  have hhead : ([c.dataType] : List String).head? ≠ some "INTERVAL" := fun heq =>
    hinterval (Option.some.inj heq)
  have hsuffixes := reads_suffixes_none (d := d) (c := c.typed) hserial h
  refine Reads.peek fun n => ?_
  have hplace : (place n (c.typeAtoms ++ more)).head? = some ⟨.word, c.dataType.toList, n⟩ := rfl
  rw [hplace, Option.filter_some, if_pos (by rfl)]
  dsimp only
  rw [hkeyword]
  refine Reads.bind (l := [word c.dataType.toList]) (reads_advance_word _ _) ?_
  refine Reads.bind_nil hwords ?_
  rw [if_neg hhead]
  refine Reads.peekIsPunct fun n => ?_
  by_cases hnil : c.parameters.isEmpty = true
  case pos =>
    have hopen : Follows (·.isPunct '(' = false) more := h.imp fun t ht => ht.isPunct (by decide)
    rw [typed_of_parameters_nil (List.isEmpty_iff.1 hnil)] at hsuffixes
    rw [if_pos hnil, typed_of_parameters_nil (List.isEmpty_iff.1 hnil), List.nil_append,
      any_head?_of_follows hopen n]
    exact hsuffixes
  case neg =>
    have hread := (reads_parenthesized (d := d) (balanced_numbers c.parameters) more).map
      (withParameters { name := c.name, dataType := c.dataType })
    rw [trim_numbers, withParameters_numbers hparams fun heq => hnil (List.isEmpty_iff.2 heq)] at hread
    rw [if_neg hnil]
    exact Reads.bind_pure hread hsuffixes

/-! ### Clauses -/

/-- What may stand behind the type of a column. -/
inductive ColumnClause where
  | default (value : Atom)
  | autoIncrement
  | autoincrement
  | identity
  | generated
  | notNull
  | primaryKey
  | unique

namespace ColumnClause

def atoms : ColumnClause → List Atom
  | default value => [word "DEFAULT".toList, blank ' ', value]
  | autoIncrement => spell ["AUTO_INCREMENT"]
  | autoincrement => spell ["AUTOINCREMENT"]
  | identity => word "IDENTITY".toList :: Atom.parameters [1, 1]
  | generated => spell ["GENERATED", "BY", "DEFAULT", "AS", "IDENTITY"]
  | notNull => spell ["NOT", "NULL"]
  | primaryKey => spell ["PRIMARY", "KEY"]
  | unique => spell ["UNIQUE"]

/-- The column with the clause behind it. -/
def apply (c : Column) : ColumnClause → Column
  | default value => { c with defaultValue := some (String.ofList value.text) }
  | autoIncrement | autoincrement | identity | generated => { c with autoIncrement := true }
  | notNull => { c with nullable := false }
  | primaryKey => { c with primaryKey := true, nullable := false }
  | unique => { c with unique := true }

/-- A default value is a literal or a number. -/
def Formed : ColumnClause → Prop
  | default value => value.kind? = some .string ∨ value.kind? = some .number
  | _ => True

/-- The clause may stand behind another one. -/
def Follows : ColumnClause → Prop
  | default _ => False
  | _ => True

end ColumnClause

theorem reads_columnClause {k : ColumnClause} (hk : k.Formed) (draft : ColumnDraft)
    (h : Follows EndsDefault more) : Reads d (columnClause draft) (blank ' ' :: k.atoms)
      (some { draft with column := k.apply draft.column }) more := by
  have hopen : Follows (·.isPunct '(' = false) more :=
    h.imp fun t ht => ht.endsType.isPunct (by decide)
  have hkeyword : ∀ ws : List String, ws.all (fun w => w != "" && w ∉ typeFollowers) →
      Follows (·.keyword ∉ ws) more := fun ws hws => h.imp fun t ht => ht.endsType.keyword_not_mem hws
  refine Reads.blank ' ' ?_
  cases k with
  | default value =>
    refine Reads.peek fun _ => Reads.bind (l := [word "DEFAULT".toList]) (reads_advance_word _ _) ?_
    exact Reads.blank ' ' (Reads.bind_pure (reads_defaultExpression hk h) (Reads.pure _ more))
  | autoIncrement | autoincrement =>
    exact Reads.peek fun _ => Reads.bind_pure (reads_advance_word _ _) (Reads.pure _ more)
  | identity =>
    refine Reads.peek fun _ => Reads.bind (l := [word "IDENTITY".toList]) (reads_advance_word _ _) ?_
    exact Reads.bind_pure (reads_skipParenthesized (balanced_numbers [1, 1]) more) (Reads.pure _ more)
  | generated =>
    refine Reads.peek fun _ => Reads.bind (l := [word "GENERATED".toList]) (reads_advance_word _ _) ?_
    refine Reads.blank ' ' (Reads.bind_pure ?_ (Reads.pure _ more))
    refine Reads.bind_nil (reads_eatWords_none (follows_word (fun _ => rfl) _)) ?_
    refine Reads.bind (l := spell ["BY", "DEFAULT"]) (r := blank ' ' :: spell ["AS", "IDENTITY"])
      (reads_eatWords _ _) ?_
    refine Reads.blank ' ' ?_
    refine Reads.bind_nil (reads_eatWords_none (follows_word (fun _ => rfl) _)).discard ?_
    refine Reads.bind (l := spell ["AS"]) (r := blank ' ' :: spell ["IDENTITY"])
      (reads_expectWords _ _) ?_
    refine Reads.blank ' ' (Reads.bind_pure (reads_eatWords _ more) ?_)
    exact Reads.bind_nil (reads_skipParenthesized_none hopen) (Reads.pure _ more)
  | notNull => exact Reads.peek fun _ => Reads.bind_pure (reads_expectWords _ more) (Reads.pure _ more)
  | primaryKey =>
    refine Reads.peek fun _ => Reads.bind_pure (reads_expectWords _ more) ?_
    exact Reads.bind_nil (reads_eatAny_none (hkeyword _ (by decide))).discard (Reads.pure _ more)
  | unique =>
    refine Reads.peek fun _ => Reads.bind_pure (reads_advance_word _ more) ?_
    have hkey := (hkeyword ["KEY"] (by decide)).imp fun t ht =>
      isWord_of_keyword_ne (t := t) (w := "KEY") (by decide) fun heq => ht (heq ▸ List.mem_cons_self)
    exact Reads.bind_nil (reads_eatWords_none hkey).discard (Reads.pure _ more)

theorem reads_columnClause_none (draft : ColumnDraft) (h : Follows EndsElement more) :
    Reads d (columnClause draft) [] none more := by
  refine Reads.peek fun n => ?_
  have hn := h n
  rw [List.nil_append]
  cases hhead : (place n more).head? with
  | none => exact Reads.pure none more
  | some t =>
    rw [hhead] at hn
    dsimp only
    rw [if_pos (hn t rfl)]
    exact Reads.pure none more

namespace ColumnClause

theorem endsDefault {k : ColumnClause} (hk : k.Follows) (as : List Atom) :
    Atom.Follows EndsDefault (blank ' ' :: k.atoms ++ as) := by
  refine Follows.blank ?_ ' '
  cases k with
  | default => exact absurd hk (by simp [ColumnClause.Follows])
  | autoIncrement => exact follows_word (fun _ => .inr (by decide : "AUTO_INCREMENT" ∈ _)) _
  | autoincrement => exact follows_word (fun _ => .inr (by decide : "AUTOINCREMENT" ∈ _)) _
  | identity => exact follows_word (fun _ => .inr (by decide : "IDENTITY" ∈ _)) _
  | generated => exact follows_word (fun _ => .inr (by decide : "GENERATED" ∈ _)) _
  | notNull => exact follows_word (fun _ => .inr (by decide : "NOT" ∈ _)) _
  | primaryKey => exact follows_word (fun _ => .inr (by decide : "PRIMARY" ∈ _)) _
  | unique => exact follows_word (fun _ => .inr (by decide : "UNIQUE" ∈ _)) _

theorem endsType (k : ColumnClause) (as : List Atom) :
    Atom.Follows EndsType (blank ' ' :: k.atoms ++ as) := by
  by_cases hk : k.Follows
  · exact (endsDefault hk as).imp fun _ ht => EndsDefault.endsType ht
  · cases k with
    | default =>
      exact Follows.blank (follows_word (fun _ => .inr (by decide : "DEFAULT" ∈ _)) _) ' '
    | _ => exact absurd trivial hk

theorem place_atoms_ne_nil (k : ColumnClause) : place 0 (blank ' ' :: k.atoms) ≠ [] := by
  cases k with
  | _ => exact List.cons_ne_nil _ _

end ColumnClause

/-- Clauses with a blank before each. -/
def Atom.clauses (ks : List ColumnClause) : List Atom := ks.flatMap fun k => blank ' ' :: k.atoms

def Column.atoms (d : Dialect) (c : Column) (ks : List ColumnClause) : List Atom :=
  Atom.name d c.name :: blank ' ' :: (c.typeAtoms ++ Atom.clauses ks)

theorem reads_columnClauses {ks : List ColumnClause} (hks : ∀ k ∈ ks, k.Formed)
    (hfollow : ∀ k ∈ ks.tail, k.Follows) (c : Column) (h : Follows EndsElement more) :
    Reads d (many columnClause { column := c }) (Atom.clauses ks)
      { column := ks.foldl ColumnClause.apply c } more := by
  let step (draft : ColumnDraft) (k : ColumnClause) : ColumnDraft :=
    { draft with column := k.apply draft.column }
  have hfold : ∀ (ks : List ColumnClause) (c : Column),
      ks.foldl step { column := c } = { column := ks.foldl ColumnClause.apply c } := by
    intro ks
    induction ks with
    | nil => exact fun _ => rfl
    | cons k ks ih => exact fun c => ih (k.apply c)
  have hmore : Follows EndsDefault more := h.imp fun _ ht => .inl ht
  rw [← hfold]
  cases ks with
  | nil => exact Reads.many_nil (reads_columnClause_none _ h)
  | cons k ks =>
    rw [List.forall_mem_cons] at hks
    have hfirst : ∀ x ∈ ks, ∀ more, Follows EndsDefault (blank ' ' :: x.atoms ++ more) :=
      fun x hx => ColumnClause.endsDefault (hfollow x hx)
    have hrest : Follows EndsDefault (Atom.clauses ks ++ more) := by
      cases ks with
      | nil => exact hmore
      | cons x xs =>
        rw [Atom.clauses, List.flatMap_cons, List.append_assoc]
        exact hfirst x List.mem_cons_self _
    refine Reads.many_cons (reads_columnClause hks.1 _ hrest) k.place_atoms_ne_nil ?_
    exact Reads.many_flatMap (fun x hx s _ hx' => reads_columnClause (hks.2 x hx) s hx') hfirst
      (fun x _ => x.place_atoms_ne_nil) (fun s => reads_columnClause_none s h) hmore _

theorem reads_columnDefinition {c : Column} {ks : List ColumnClause} (htype : PlainType c.dataType)
    (hparams : c.Parametrized) (hks : ∀ k ∈ ks, k.Formed) (hfollow : ∀ k ∈ ks.tail, k.Follows)
    (h : Follows EndsElement more) : Reads d columnDefinition (c.atoms d ks)
      (ks.foldl ColumnClause.apply c.typed, []) more := by
  have hclauses : Follows EndsType (Atom.clauses ks ++ more) := by
    cases ks with
    | nil => exact h.imp fun _ ht => .inl ht
    | cons k ks =>
      rw [Atom.clauses, List.flatMap_cons, List.append_assoc]
      exact k.endsType _
  refine Reads.bind (l := [Atom.name d c.name]) (reads_ident d c.name _) (Reads.blank ' ' ?_)
  refine Reads.bind (reads_columnType htype hparams hclauses) ?_
  exact Reads.bind_pure (reads_columnClauses hks hfollow c.typed h) (Reads.pure _ more)

end DdlBridge
