import DdlBridge.Ddl.Identifier
import DdlBridge.Proofs.Grammar.Reads
import DdlBridge.Proofs.Statement.Tracking

/-!
# Names and numbers in DDL

A name in DDL is one atom, quoted or not, that is read back as the name (`reads_name`). A name that
is no reserved word is no keyword of the grammar either (`keyword_name`).
-/

namespace DdlBridge

open Text Atom Ddl DdlBridge.Parser

/-! ### Numbers -/

namespace Atom

def ofNat (n : Nat) : Atom := number (Nat.toDigits 10 n) none

theorem text_ofNat_eq (n : Nat) : (ofNat n).text = Nat.toDigits 10 n := by
  rw [ofNat, text, Option.map_none, Option.getD_none, List.append_nil]

theorem text_ofNat (n : Nat) : (ofNat n).text = (toString n).toList := by
  rw [Nat.toString_eq_repr, Nat.toList_repr, text_ofNat_eq]

theorem formed_ofNat (rules : LexicalRules) (n : Nat) : (ofNat n).Formed rules := by
  obtain ⟨c, cs, hcs⟩ := List.exists_cons_of_ne_nil (Nat.toDigits_ne_nil (n := n) (b := 10))
  rw [ofNat, hcs]
  refine .number (fun d hd => ?_) fun _ h => absurd h (by simp)
  rw [← hcs] at hd
  exact Nat.isDigit_of_mem_toDigits (by decide) (by decide) hd

theorem natural?_of_digits {cs : List Char} (hne : cs ≠ []) (hcs : ∀ c ∈ cs, c.isDigit = true) :
    natural? cs = some (Nat.ofDigitChars 10 cs 0) := by
  have hfold : ∀ (cs : List Char) (n : Nat), (∀ c ∈ cs, c.isDigit = true) →
      cs.foldl (fun n c => n.bind fun n => if c.isDigit then some (10 * n + (c.toNat - 48)) else none)
        (some n) = some (Nat.ofDigitChars 10 cs n) := by
    intro cs
    induction cs with
    | nil => exact fun n _ => by rw [List.foldl_nil, Nat.ofDigitChars_nil]
    | cons c cs ih =>
      intro n hcs
      rw [List.forall_mem_cons] at hcs
      rw [List.foldl_cons, Nat.ofDigitChars_cons, ← ih _ hcs.2, Option.bind_some, if_pos hcs.1]
      rfl
  rw [natural?, if_neg (by simpa using hne)]
  exact hfold cs 0 hcs

theorem natural?_toDigits (n : Nat) : natural? (Nat.toDigits 10 n) = some n := by
  rw [natural?_of_digits Nat.toDigits_ne_nil
    fun c hc => Nat.isDigit_of_mem_toDigits (by decide) (by decide) hc,
    Nat.ofDigitChars_ten_toDigits]

end Atom

/-! ### Doubled quotes -/

theorem undouble_double (quote : Char) (cs : List Char) : undouble quote (double quote cs) = cs := by
  induction cs with
  | nil => rfl
  | cons c cs ih =>
    rw [double]
    split
    case isTrue h =>
      rw [undouble, if_pos ⟨rfl, rfl⟩, ih, h]
    case isFalse h =>
      cases hrest : double quote cs with
      | nil =>
        rw [hrest] at ih
        rw [undouble, ← ih]
        rfl
      | cons d ds =>
        rw [hrest] at ih
        rw [undouble, if_neg fun heq => h heq.1, ih]

theorem enclosed_double {rules : LexicalRules} {quote : Char} (h : Statement.escapesIn rules quote = false)
    (cs : List Char) : Statement.Enclosed rules quote (double quote cs) := by
  induction cs with
  | nil => exact .nil
  | cons c cs ih =>
    rw [double]
    split
    case isTrue => exact .doubled ih
    case isFalse hc => exact .char hc (by simp [h]) ih

/-! ### Names -/

/-- The name in quotes. -/
def Atom.quotedName (d : Dialect) (name : String) : Atom :=
  .quoted (Style.of d).quotes.1 (double (Style.of d).quotes.2 name.toList)

/-- The name as DDL of a dialect. -/
def Atom.name (d : Dialect) (name : String) : Atom :=
  if needsQuoting name then
    .quoted (Style.of d).quotes.1 (double (Style.of d).quotes.2 name.toList)
  else .word name.toList

/-- A name that no `$` starts. -/
def PlainName (name : String) : Prop := name.toList.head? ≠ some '$'

instance (name : String) : Decidable (PlainName name) :=
  inferInstanceAs (Decidable (name.toList.head? ≠ some '$'))

/-- A name that is read back: only without quotes does a `$` at its start matter. -/
def Readable (name : String) : Prop := needsQuoting name = false → PlainName name

instance (name : String) : Decidable (Readable name) := inferInstanceAs (Decidable (_ → _))

theorem PlainName.readable {name : String} (h : PlainName name) : Readable name := fun _ => h

theorem PlainName.append {name suffix : String} (h : PlainName name) (hsuffix : PlainName suffix) :
    PlainName (name ++ suffix) := by
  rw [PlainName] at h hsuffix ⊢
  rw [String.toList_append]
  cases hcs : name.toList with
  | nil => exact hsuffix
  | cons c cs =>
    rw [hcs] at h
    exact h

theorem quotes_opens (d : Dialect) : Statement.opensQuote d.rules (Style.of d).quotes.1 = true ∧
    Statement.closing (Style.of d).quotes.1 = (Style.of d).quotes.2 ∧
    Statement.escapesIn d.rules (Style.of d).quotes.2 = false ∧
    (Style.of d).quotes.1 ≠ '\x27' ∧
    ((Style.of d).quotes.1 = '\x22' → d.rules.backslashEscapes = false) := by
  cases d <;> decide

variable {d : Dialect} {name : String}

theorem text_quotedName (d : Dialect) (name : String) :
    (Atom.quotedName d name).text = ((Style.of d).quoteIdent name).toList := by
  rw [Atom.quotedName, Atom.text, (quotes_opens d).2.1, Style.quoteIdent, String.toList_ofList]

theorem formed_quotedName (d : Dialect) (name : String) : (Atom.quotedName d name).Formed d.rules := by
  obtain ⟨hopens, hclosing, hescape, -, hplain⟩ := quotes_opens d
  refine .quoted hopens ?_ fun heq hon => ?_
  · rw [hclosing]
    exact enclosed_double hescape _
  · rw [hplain heq] at hon
    exact absurd hon (by simp)

theorem unquote_quotedName (d : Dialect) (name : String) :
    unquote (Atom.quotedName d name).text = name.toList := by
  have hclosing := (quotes_opens d).2.1
  rw [Atom.quotedName, Atom.text, hclosing]
  unfold unquote
  dsimp only
  rw [Statement.closing] at hclosing
  rw [hclosing, List.getLast?_concat, if_pos rfl, List.dropLast_concat, undouble_double]

theorem text_name (d : Dialect) (name : String) :
    (Atom.name d name).text = ((Style.of d).quote name).toList := by
  unfold Atom.name Style.quote
  split
  case isTrue => exact text_quotedName d name
  case isFalse => rfl

/-- What a name that needs no quotes is made of. -/
theorem bare_of_not_needsQuoting (h : needsQuoting name = false) (hname : PlainName name) :
    ∃ c cs, name.toList = c :: cs ∧ Lexer.startsWord c = true ∧
      (∀ e ∈ cs, Lexer.continuesWord e = true) ∧ isReserved name.toList = false := by
  unfold needsQuoting at h
  simp only [Bool.or_eq_false_iff, Bool.not_eq_false'] at h
  obtain ⟨⟨⟨hreserved, hempty⟩, hall⟩, hnumeral⟩ := h
  cases hcs : name.toList with
  | nil =>
    rw [hcs] at hempty
    exact absurd hempty (by simp)
  | cons c cs =>
    rw [PlainName, hcs] at hname
    rw [hcs] at hall hnumeral hreserved
    simp only [List.all_cons, Bool.and_eq_true, List.all_eq_true] at hall
    have hdollar : c ≠ '$' := fun heq => hname (by rw [heq]; rfl)
    have hletter : isNumeral c = false := hnumeral
    refine ⟨c, cs, rfl, ?_, fun e he => ?_, hreserved⟩
    · have hc := hall.1
      simp only [isBareChar, isLetterOrNumeral, hletter, Bool.or_false, Bool.or_eq_true,
        beq_iff_eq] at hc
      simp only [Lexer.startsWord, Bool.or_eq_true, beq_iff_eq]
      exact hc.resolve_right hdollar
    · have he := hall.2 e he
      simp only [isBareChar, Bool.or_eq_true] at he
      simp only [Lexer.continuesWord, Bool.or_eq_true]
      exact .inl he

theorem formed_name (d : Dialect) (hname : Readable name) : (Atom.name d name).Formed d.rules := by
  unfold Atom.name
  split
  case isTrue => exact formed_quotedName d name
  case isFalse h =>
    rw [Bool.not_eq_true] at h
    obtain ⟨c, cs, hcs, hfirst, hrest, -⟩ := bare_of_not_needsQuoting h (hname h)
    rw [hcs]
    exact .word hfirst hrest

/-- The kind of the token that a name is. -/
theorem kind_name (d : Dialect) (name : String) :
    (Atom.name d name).kind? = some (if needsQuoting name then .quotedIdent else .word) := by
  unfold Atom.name
  split
  case isTrue => simp [Atom.kind?, (quotes_opens d).2.2.2.1]
  case isFalse => rfl

theorem ident?_name (d : Dialect) (name : String) (n : Nat) :
    (⟨if needsQuoting name then .quotedIdent else .word, (Atom.name d name).text, n⟩ :
      Token).ident? = some name := by
  unfold Atom.name
  split
  case isTrue =>
    have hname : unquote (Atom.text (.quoted (Style.of d).quotes.1
        (double (Style.of d).quotes.2 name.toList))) = name.toList := unquote_quotedName d name
    simp only [Token.ident?, hname, String.ofList_toList]
  case isFalse => simp [Token.ident?, Atom.text]

theorem place_name (d : Dialect) (name : String) (n : Nat) (as : List Atom) :
    place n (Atom.name d name :: as) =
      ⟨if needsQuoting name then .quotedIdent else .word, (Atom.name d name).text, n⟩ ::
        place (n + width (Atom.name d name).text) as :=
  place_of_kind (kind_name d name) n as

theorem reads_ident (d : Dialect) (name : String) (more : List Atom) :
    Reads d ident [Atom.name d name] name more := by
  intro front
  rw [List.singleton_append, place_name, ident, ident?_name]
  simp only [textOf, List.flatMap_cons, List.flatMap_nil, List.append_nil]

/-! ### Names and keywords -/

/-- In upper case a word that is not reserved is no reserved word. -/
theorem upper_ne_of_not_isReserved {cs ws : List Char} (h : isReserved cs = false)
    (hascii : ∀ c ∈ ws, c.toNat < 128) (hws : String.ofList (ws.map Char.toLower) ∈ reservedWords) :
    upper cs ≠ ws := by
  rintro rfl
  have hlower : cs.map lowerChar = (upper cs).map Char.toLower := by
    rw [upper, List.map_map]
    refine List.map_congr_left fun c hc => ?_
    have hupper : c.toUpper.toNat < 128 := hascii _ (List.mem_map_of_mem hc)
    have hlt : c.toNat < 128 := by
      rcases Nat.lt_or_ge c.toNat 128 with hlt | hge
      · exact hlt
      · rwa [toUpper_of_le hge] at hupper
    have hkelvin : c ≠ '\u212a' := by
      rintro rfl
      exact absurd hlt (by decide)
    rw [lowerChar, if_neg hkelvin, Function.comp_apply, toLower_toUpper]
  rw [isReserved, hlower, decide_eq_false_iff_not] at h
  exact h hws

theorem keyword_name_ne {w : String} (hne : w ≠ "")
    (h : needsQuoting name = false → upper name.toList ≠ w.toList) (n : Nat) :
    (⟨if needsQuoting name then .quotedIdent else .word, (Atom.name d name).text, n⟩ :
      Token).keyword ≠ w := by
  cases hquoting : needsQuoting name with
  | true => exact hne.symm
  | false =>
    intro heq
    change String.ofList (upper (Atom.name d name).text) = w at heq
    rw [← String.toList_inj, String.toList_ofList, Atom.name, hquoting, if_neg (by simp)] at heq
    exact h hquoting heq

/-- A name is none of the keywords that are reserved words. -/
theorem keyword_name (hname : Readable name) {w : String} (hne : w ≠ "")
    (hascii : ∀ c ∈ w.toList, c.toNat < 128)
    (hw : String.ofList (w.toList.map Char.toLower) ∈ reservedWords) (n : Nat) :
    (⟨if needsQuoting name then .quotedIdent else .word, (Atom.name d name).text, n⟩ :
      Token).keyword ≠ w := by
  refine keyword_name_ne hne (fun hquoting => ?_) n
  obtain ⟨-, -, -, -, -, hreserved⟩ := bare_of_not_needsQuoting hquoting (hname hquoting)
  exact upper_ne_of_not_isReserved hreserved hascii hw

end DdlBridge
