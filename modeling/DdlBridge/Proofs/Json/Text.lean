import DdlBridge.Json.Reader
import DdlBridge.Text.Basic
import Mathlib.Control.Basic
import Mathlib.Data.Option.Basic

/-!
# JSON texts

A value that is written over several lines is read back (`parse?_pretty`), if all of its numbers are
integers. A string comes back whatever its characters are, and an integer whatever its size. The fuel
of the reader lasts because every call takes at least one character.
-/

namespace DdlBridge.Json

/-- A value whose numbers are integers and whose strings are text. -/
inductive Plain : Json → Prop where
  | null : Plain null
  | bool (b : Bool) : Plain (bool b)
  | int (n : Int) : Plain (int n)
  | str (s : String) : Plain (str s)
  | arr {items : List Json} (h : ∀ v ∈ items, Plain v) : Plain (arr items)
  | obj {members : List (String × Json)} (h : ∀ m ∈ members, Plain m.2) : Plain (obj members)

attribute [simp] Plain.null Plain.bool Plain.int Plain.str

@[simp] theorem plain_arr_iff {items : List Json} : Plain (arr items) ↔ ∀ v ∈ items, Plain v :=
  ⟨fun h => by cases h; assumption, .arr⟩

@[simp] theorem plain_obj_iff {members : List (String × Json)} :
    Plain (obj members) ↔ ∀ m ∈ members, Plain m.2 :=
  ⟨fun h => by cases h; assumption, .obj⟩

/-! ### Strings -/

/-- The escape of a control character stands for it. -/
theorem unicodeEscape?_control {n : Nat} (hn : n < 32) (rest : List Char) :
    unicodeEscape? ('0' :: '0' :: hexDigit (n / 16) :: hexDigit (n % 16) :: rest) =
      some (Char.ofNat n, rest) := by
  have hdigits : ∀ n < 32, hexNumber? ['0', '0', hexDigit (n / 16), hexDigit (n % 16)] = some n := by
    decide
  have hhigh : isHighSurrogate n = false := by
    simp only [isHighSurrogate, Bool.and_eq_false_iff, decide_eq_false_iff_not]
    omega
  have hlow : isLowSurrogate n = false := by
    simp only [isLowSurrogate, Bool.and_eq_false_iff, decide_eq_false_iff_not]
    omega
  simp [unicodeEscape?, hdigits n hn, hhigh, hlow]

theorem stringBody?_escapeChar (done : List Char) (c : Char) (rest : List Char) :
    stringBody? done (escapeChar c ++ rest) = stringBody? (c :: done) rest := by
  unfold escapeChar
  split
  -- Seven characters have escapes of their own; any other is a control character or stands for itself.
  case h_8 c hquote hbackslash _ _ _ _ _ =>
    split
    case isTrue hcontrol =>
      have hescape := unicodeEscape?_control hcontrol rest
      rw [Char.ofNat_toNat] at hescape
      simp only [List.cons_append, List.nil_append]
      rw [stringBody?, hescape]
      exact if_pos (by simp only [List.length_cons]; omega)
    case isFalse hplain =>
      rw [List.singleton_append, stringBody?]
      · rw [if_neg hplain]
      · exact hquote
      · rintro _ rfl
        exact absurd rfl hbackslash
      · rintro _ _ rfl
        exact absurd rfl hbackslash
  all_goals
    simp only [List.cons_append, List.nil_append]
    rw [stringBody?]
    · rfl
    · simp

theorem stringBody?_escaped (done cs rest : List Char) :
    stringBody? done (cs.flatMap escapeChar ++ '\x22' :: rest) =
      some (String.ofList (done.reverse ++ cs), rest) := by
  induction cs generalizing done with
  | nil => rw [List.flatMap_nil, List.nil_append, stringBody?, List.append_nil]
  | cons c cs ih =>
    rw [List.flatMap_cons, List.append_assoc, stringBody?_escapeChar, ih, List.reverse_cons,
      List.append_assoc, List.singleton_append]

theorem readString?_quoted (s : String) (rest : List Char) :
    readString? (s.toList.flatMap escapeChar ++ '\x22' :: rest) = some (some s, rest) := by
  rw [readString?, stringBody?_escaped, List.reverse_nil, List.nil_append, String.ofList_toList]

/-! ### Integers -/

/-- What may follow a value: the comma behind it, or a line end. -/
def Follows (rest : List Char) : Prop := ∀ c ∈ rest.head?, c = ',' ∨ c = '\n'

theorem head?_toDigits_ne {n : Nat} (hn : n ≠ 0) : (Nat.toDigits 10 n).head? ≠ some '0' := by
  induction n using Nat.strongRecOn with
  | ind n ih =>
    rcases Nat.lt_or_ge n 10 with hlt | hge
    · have hdigit : ∀ n < 10, n ≠ 0 → n.digitChar ≠ '0' := by decide
      rw [Nat.toDigits_of_lt_base hlt]
      simpa using hdigit n hlt hn
    · obtain ⟨c, cs, hfront⟩ := List.exists_cons_of_ne_nil (Nat.toDigits_ne_nil (n := n / 10) (b := 10))
      have hc := ih (n / 10) (by omega) (by omega)
      rw [hfront] at hc
      rw [Nat.toDigits_of_base_le (by decide) hge, hfront]
      exact hc

theorem digitsValue_toDigits (n : Nat) : digitsValue (Nat.toDigits 10 n) = n := by
  have hvalue : digitsValue (Nat.toDigits 10 n) = Nat.ofDigitChars 10 (Nat.toDigits 10 n) 0 := rfl
  rw [hvalue, Nat.ofDigitChars_ten_toDigits]

theorem Follows.digit {rest : List Char} (h : Follows rest) : ∀ c ∈ rest.head?, c.isDigit = false := by
  intro c hc
  rcases h c hc with rfl | rfl <;> decide

theorem Follows.fraction {rest : List Char} (h : Follows rest) : fraction? rest = some ([], rest) := by
  cases rest with
  | nil => rfl
  | cons c rest =>
    rcases h c rfl with rfl | rfl
    all_goals rfl

theorem Follows.exponent {rest : List Char} (h : Follows rest) : exponent? rest = some ([], rest) := by
  cases rest with
  | nil => rfl
  | cons c rest =>
    rcases h c rfl with rfl | rfl
    all_goals rfl

/-- The digits of a number start with a zero only if there is no other. -/
theorem wellFormed_toDigits (n : Nat) : (!(Nat.toDigits 10 n).isEmpty &&
    ((Nat.toDigits 10 n).length == 1 || (Nat.toDigits 10 n).head? != some '0')) = true := by
  have hne : (Nat.toDigits 10 n).isEmpty = false := by simp
  rw [hne, Bool.not_false, Bool.true_and, Bool.or_eq_true, beq_iff_eq, bne_iff_ne]
  rcases Nat.eq_zero_or_pos n with rfl | hpos
  · exact .inl rfl
  · exact .inr (head?_toDigits_ne (Nat.pos_iff_ne_zero.1 hpos))

/-- The digits of a number, behind a minus sign or none. -/
theorem number?_digits (negative : Bool) {n : Nat} (hn : negative = true → n ≠ 0) {rest : List Char}
    (hrest : Follows rest) :
    number? ((if negative then ['-'] else []) ++ (Nat.toDigits 10 n ++ rest)) =
      some (int (if negative then -n else n), rest) := by
  have hdigits : ∀ c ∈ Nat.toDigits 10 n, c.isDigit = true :=
    fun c hc => Nat.isDigit_of_mem_toDigits (by decide) (by decide) hc
  obtain ⟨htake, hdrop⟩ := Text.takeWhile_append_of_head hdigits hrest.digit
  have hsign : (((if negative then ['-'] else []) ++ (Nat.toDigits 10 n ++ rest)).head? == some '-') =
      negative := by
    cases negative with
    | true => rfl
    | false =>
      obtain ⟨c, cs, hcs⟩ := List.exists_cons_of_ne_nil (Nat.toDigits_ne_nil (n := n) (b := 10))
      have hc : c ≠ '-' := by
        rintro rfl
        exact absurd (hdigits '-' (by simp [hcs])) (by decide)
      simpa [hcs] using hc
  have hbody : (if negative then ((if negative then ['-'] else []) ++ (Nat.toDigits 10 n ++ rest)).tail
      else (if negative then ['-'] else []) ++ (Nat.toDigits 10 n ++ rest)) =
      Nat.toDigits 10 n ++ rest := by
    cases negative with
    | true => rfl
    | false => rfl
  have hzero : (negative && digitsValue (Nat.toDigits 10 n) == 0) = false := by
    rw [digitsValue_toDigits]
    cases negative with
    | true => simpa using hn rfl
    | false => rfl
  rw [digitsValue_toDigits] at hzero
  unfold number?
  simp only [hsign, hbody, htake, hdrop, hrest.fraction, wellFormed_toDigits, digitsValue_toDigits,
    guard_true, Option.bind_eq_bind, Option.bind_some, hrest.exponent, hzero]
  rfl

theorem toList_toString (n : Int) : (toString n).toList =
    (if (decide (n < 0)) then ['-'] else []) ++ Nat.toDigits 10 n.natAbs := by
  cases n with
  | ofNat n =>
    have hnot : ¬ Int.ofNat n < 0 := by simp
    rw [decide_eq_false hnot]
    exact Nat.toList_repr
  | negSucc n =>
    rw [decide_eq_true (Int.negSucc_lt_zero n)]
    show ("-" ++ (n + 1).repr).toList = _
    rw [String.toList_append, Nat.toList_repr]
    rfl

theorem number?_toString (n : Int) {rest : List Char} (hrest : Follows rest) :
    number? ((toString n).toList ++ rest) = some (int n, rest) := by
  rw [toList_toString, List.append_assoc, number?_digits _ _ hrest]
  · cases n with
    | ofNat n =>
      have hnot : ¬ Int.ofNat n < 0 := by simp
      rw [decide_eq_false hnot]
      rfl
    | negSucc n => rw [decide_eq_true (Int.negSucc_lt_zero n)]; rfl
  · intro hneg
    have hlt := of_decide_eq_true hneg
    omega

/-! ### White space -/

theorem skipSpace_append {ws : List Char} (hws : ∀ c ∈ ws, isSpace c = true) (cs : List Char) :
    skipSpace (ws ++ cs) = skipSpace cs :=
  List.dropWhile_append_of_pos hws

theorem skipSpace_cons {c : Char} (hc : isSpace c = false) (cs : List Char) :
    skipSpace (c :: cs) = c :: cs :=
  List.dropWhile_cons_of_neg (by simp [hc])

theorem isSpace_of_mem_newline {depth : Nat} : ∀ c ∈ newline depth, isSpace c = true := by
  rw [newline, List.forall_mem_cons]
  refine ⟨rfl, fun c hc => ?_⟩
  rw [List.eq_of_mem_replicate hc]
  rfl

section Leading

variable {ws : List Char} (hws : ∀ c ∈ ws, isSpace c = true) (fuel : Nat) (cs : List Char)

include hws

theorem value?_append : value? fuel (ws ++ cs) = value? fuel cs := by
  cases fuel with
  | zero => rfl
  | succ fuel => rw [value?, value?, skipSpace_append hws]

theorem items?_append (done : List Json) : items? fuel done (ws ++ cs) = items? fuel done cs := by
  cases fuel with
  | zero => rfl
  | succ fuel => rw [items?, items?, value?_append hws]

theorem members?_append (done : List (Option String × Json)) :
    members? fuel done (ws ++ cs) = members? fuel done cs := by
  cases fuel with
  | zero => rfl
  | succ fuel => rw [members?, members?, skipSpace_append hws]

end Leading

/-! ### Values -/

/-- What an integer starts with. -/
def NumberStart (c : Char) : Prop := c.isDigit = true ∨ c = '-'

instance (c : Char) : Decidable (NumberStart c) := inferInstanceAs (Decidable (_ ∨ _))

theorem NumberStart.ne {c : Char} (hc : NumberStart c) {ds : List Char}
    (hds : ∀ d ∈ ds, ¬ NumberStart d) : ∀ d ∈ ds, c ≠ d := by
  rintro d hd rfl
  exact hds c hd hc

theorem NumberStart.not_space {c : Char} (hc : NumberStart c) : isSpace c = false := by
  have hne : ∀ d ∈ [' ', '\n', '\t', '\r'], c ≠ d := hc.ne (by decide)
  simp only [List.mem_cons, List.not_mem_nil, or_false, forall_eq_or_imp, forall_eq] at hne
  simp [isSpace, hne]

theorem exists_cons_of_toString (n : Int) : ∃ c cs, (toString n).toList = c :: cs ∧ NumberStart c := by
  obtain ⟨c, cs, hdigits⟩ := List.exists_cons_of_ne_nil (Nat.toDigits_ne_nil (n := n.natAbs) (b := 10))
  rw [toList_toString, hdigits]
  split
  case isTrue => exact ⟨'-', c :: cs, rfl, .inr rfl⟩
  case isFalse =>
    exact ⟨c, cs, rfl, .inl (Nat.isDigit_of_mem_toDigits (by decide) (by decide)
      (hdigits ▸ List.mem_cons_self))⟩

theorem pretty_int (depth : Nat) (n : Int) : pretty depth (int n) = (toString n).toList := by
  rw [pretty, scalar] <;> simp

section Equations

variable (fuel : Nat) (cs : List Char)

theorem value?_quote : value? (fuel + 1) ('\x22' :: cs) =
    (readString? cs).map fun (s, rest) => ((s.map str).getD broken, rest) := by
  rw [value?]
  rfl

theorem value?_bracket : value? (fuel + 1) ('[' :: cs) = match skipSpace cs with
    | ']' :: rest => some (arr [], rest)
    | rest => items? fuel [] rest := by
  rw [value?]
  rfl

theorem value?_brace : value? (fuel + 1) ('\x7b' :: cs) = match skipSpace cs with
    | '\x7d' :: rest => some (obj [], rest)
    | rest => members? fuel [] rest := by
  rw [value?]
  rfl

theorem value?_number {c : Char} (hc : NumberStart c) :
    value? (fuel + 1) (c :: cs) = number? (c :: cs) := by
  have hne : ∀ d ∈ ['\x22', '[', '\x7b', 'n', 't', 'f'], c ≠ d := hc.ne (by decide)
  rw [value?, skipSpace_cons hc.not_space]
  split
  case h_7 => rfl
  all_goals
    rename_i heq
    exact absurd (List.cons.inj heq).1 (hne _ (by simp))

end Equations

/-- The value is read from its text, whatever follows. -/
def Reads (v : Json) : Prop := ∀ depth fuel rest, Follows rest → (pretty depth v).length < fuel →
  value? fuel (pretty depth v ++ rest) = some (v, rest)

theorem reads_int (n : Int) : Reads (int n) := by
  rintro depth (_ | fuel) rest hrest hfuel
  · exact absurd hfuel (Nat.not_lt_zero _)
  · have hread := number?_toString n hrest
    obtain ⟨c, cs, htext, hc⟩ := exists_cons_of_toString n
    rw [htext] at hread
    rw [pretty_int, htext, List.cons_append, value?_number fuel _ hc]
    exact hread

theorem reads_str (s : String) : Reads (str s) := by
  rintro depth (_ | fuel) rest - hfuel
  · exact absurd hfuel (Nat.not_lt_zero _)
  · have htext : pretty depth (str s) ++ rest =
        '\x22' :: (s.toList.flatMap escapeChar ++ '\x22' :: rest) := by
      simp [pretty, scalar, quoted]
    rw [htext, value?_quote, readString?_quoted]
    rfl

theorem reads_null : Reads null := by
  rintro depth (_ | fuel) rest - hfuel
  · exact absurd hfuel (Nat.not_lt_zero _)
  · have htext : pretty depth null ++ rest = 'n' :: 'u' :: 'l' :: 'l' :: rest := by
      simp [pretty, scalar]
    rw [htext, value?]
    rfl

theorem reads_bool (b : Bool) : Reads (bool b) := by
  rintro depth (_ | fuel) rest - hfuel
  · exact absurd hfuel (Nat.not_lt_zero _)
  · have htext : pretty depth (bool b) = if b then "true".toList else "false".toList := by
      rw [pretty, scalar] <;> simp
      cases b with
      | true => rfl
      | false => rfl
    rw [htext, value?]
    cases b with
    | true => rfl
    | false => rfl

/-! ### Arrays and objects -/

theorem follows_newline (depth : Nat) (cs : List Char) : Follows (newline depth ++ cs) := by
  rintro c hc
  obtain rfl := Option.some.inj hc
  exact .inr rfl

theorem follows_comma (cs : List Char) : Follows (',' :: cs) := by
  rintro c hc
  obtain rfl := Option.some.inj hc
  exact .inl rfl

/-- What stands behind an item: the other items, and the bracket on a line of its own. -/
def behindItem (depth outer : Nat) (vs : List Json) (rest : List Char) : List Char :=
  prettyItems depth vs ++ (newline outer ++ ']' :: rest)

theorem follows_behindItem (depth outer : Nat) (vs : List Json) (rest : List Char) :
    Follows (behindItem depth outer vs rest) := by
  cases vs with
  | nil => exact follows_newline outer _
  | cons v vs => exact follows_comma _

/-- One item is read, and what stands behind it says whether there is another. -/
theorem items?_step {v : Json} (hv : Reads v) (done : List Json) {depth fuel : Nat}
    {behind rest : List Char} (hbehind : Follows behind) (hfuel : (pretty depth v).length < fuel) :
    (skipSpace behind = ',' :: rest →
      items? (fuel + 1) done (pretty depth v ++ behind) = items? fuel (v :: done) rest) ∧
    (skipSpace behind = ']' :: rest →
      items? (fuel + 1) done (pretty depth v ++ behind) = some (arr (v :: done).reverse, rest)) := by
  rw [items?, hv depth fuel behind hbehind hfuel]
  refine ⟨fun hnext => ?_, fun hnext => ?_⟩
  all_goals simp only [hnext]

theorem items?_pretty {depth : Nat} (outer : Nat) (rest : List Char) {vs : List Json}
    (hvs : ∀ v ∈ vs, Reads v) {v : Json} (hv : Reads v) (done : List Json) {fuel : Nat}
    (hfuel : (pretty depth v ++ prettyItems depth vs).length < fuel) :
    items? (fuel + 1) done (pretty depth v ++ behindItem depth outer vs rest) =
      some (arr (done.reverse ++ v :: vs), rest) := by
  induction vs generalizing v done fuel with
  | nil =>
    simp only [prettyItems, List.append_nil] at hfuel
    have hbehind : skipSpace (behindItem depth outer [] rest) = ']' :: rest :=
      (skipSpace_append isSpace_of_mem_newline _).trans (skipSpace_cons (by decide) rest)
    rw [(items?_step hv done (follows_behindItem _ _ _ _) hfuel).2 hbehind, List.reverse_cons]
  | cons w vs ih =>
    obtain ⟨hw, hvs⟩ := List.forall_mem_cons.1 hvs
    obtain ⟨fuel, rfl⟩ := Nat.exists_eq_add_one_of_ne_zero (by omega : fuel ≠ 0)
    simp only [prettyItems, List.length_append, List.length_cons] at hfuel
    have hbehind : skipSpace (behindItem depth outer (w :: vs) rest) =
        ',' :: (newline depth ++ (pretty depth w ++ behindItem depth outer vs rest)) := by
      rw [behindItem, prettyItems, List.cons_append, skipSpace_cons (by decide)]
      simp [behindItem]
    rw [(items?_step hv done (follows_behindItem _ _ _ _) (by omega)).1 hbehind,
      items?_append isSpace_of_mem_newline, ih hvs hw (v :: done) (by rw [List.length_append]; omega),
      List.reverse_cons, List.append_assoc, List.singleton_append]

/-- A value is written from a character that is no white space and no bracket that closes. -/
theorem exists_cons_of_pretty {v : Json} (hv : Plain v) (depth : Nat) : ∃ c cs,
    pretty depth v = c :: cs ∧ isSpace c = false ∧ c ≠ ']' := by
  cases hv with
  | null => exact ⟨'n', ['u', 'l', 'l'], by simp [pretty, scalar], by decide, by decide⟩
  | bool b =>
    cases b with
    | true => exact ⟨'t', ['r', 'u', 'e'], by simp [pretty, scalar], by decide, by decide⟩
    | false => exact ⟨'f', ['a', 'l', 's', 'e'], by simp [pretty, scalar], by decide, by decide⟩
  | int n =>
    obtain ⟨c, cs, htext, hc⟩ := exists_cons_of_toString n
    have hne : ∀ d ∈ [']'], c ≠ d := hc.ne (by decide)
    exact ⟨c, cs, by rw [pretty_int, htext], hc.not_space, hne _ (by simp)⟩
  | str s => exact ⟨'\x22', s.toList.flatMap escapeChar ++ ['\x22'], by simp [pretty, scalar, quoted],
    by decide, by decide⟩
  | @arr items _ =>
    cases items with
    | nil => exact ⟨'[', [']'], rfl, by decide, by decide⟩
    | cons v vs => exact ⟨'[', _, by rw [pretty], by decide, by decide⟩
  | @obj members _ =>
    cases members with
    | nil => exact ⟨'\x7b', ['\x7d'], rfl, by decide, by decide⟩
    | cons m ms => exact ⟨'\x7b', _, by rw [pretty], by decide, by decide⟩

theorem reads_arr {vs : List Json} (hplain : ∀ v ∈ vs, Plain v) (hvs : ∀ v ∈ vs, Reads v) :
    Reads (arr vs) := by
  rintro depth (_ | fuel) rest - hfuel
  · exact absurd hfuel (Nat.not_lt_zero _)
  · cases vs with
    | nil => rfl
    | cons v vs =>
      have htext : pretty depth (arr (v :: vs)) ++ rest = '[' :: (newline (depth + 1) ++
          (pretty (depth + 1) v ++ behindItem (depth + 1) depth vs rest)) := by
        simp [pretty, behindItem]
      obtain ⟨fuel, rfl, hlength⟩ : ∃ k, fuel = k + 1 ∧
          (pretty (depth + 1) v ++ prettyItems (depth + 1) vs).length < k := by
        rw [pretty] at hfuel
        simp only [List.length_cons, List.length_append, newline] at hfuel ⊢
        exact ⟨fuel - 1, by omega, by omega⟩
      obtain ⟨hv, hvs⟩ := List.forall_mem_cons.1 hvs
      have hitems := items?_pretty depth rest hvs hv [] hlength
      obtain ⟨c, cs, hhead, hspace, hbracket⟩ :=
        exists_cons_of_pretty (hplain v List.mem_cons_self) (depth + 1)
      -- The first item does not start as the end of an empty array would.
      rw [htext, value?_bracket, skipSpace_append isSpace_of_mem_newline]
      rw [hhead, List.cons_append] at hitems ⊢
      rw [skipSpace_cons hspace]
      split
      case h_1 heq => exact absurd (List.cons.inj heq).1 hbracket
      case h_2 => exact hitems

/-- What stands behind a member. -/
def behindMember (depth outer : Nat) (ms : List (String × Json)) (rest : List Char) : List Char :=
  prettyMembers depth ms ++ (newline outer ++ '\x7d' :: rest)

theorem follows_behindMember (depth outer : Nat) (ms : List (String × Json)) (rest : List Char) :
    Follows (behindMember depth outer ms rest) := by
  cases ms with
  | nil => exact follows_newline outer _
  | cons v vs => exact follows_comma _

/-- A member as the reader keeps it. -/
def named (m : String × Json) : Option String × Json := (some m.1, m.2)

theorem ofMembers_named (ms : List (String × Json)) : ofMembers (ms.map named) = obj ms := by
  have hnames : (ms.map named).mapM (fun m => m.1.map fun name => (name, m.2)) = some ms := by
    induction ms with
    | nil => rfl
    | cons m ms ih =>
      rw [List.map_cons, List.mapM_cons, ih]
      rfl
  unfold ofMembers
  split
  case h_1 members h => rw [← Option.some.inj (hnames.symm.trans h)]
  case h_2 h => exact absurd (hnames.symm.trans h) (by simp)

theorem prettyMember_append (depth : Nat) (m : String × Json) (behind : List Char) :
    prettyMember depth m ++ behind = '\x22' :: (m.1.toList.flatMap escapeChar ++
      '\x22' :: ':' :: ([' '] ++ (pretty depth m.2 ++ behind))) := by
  obtain ⟨name, v⟩ := m
  simp [prettyMember, quoted]

theorem length_prettyMember (depth : Nat) (m : String × Json) :
    (pretty depth m.2).length < (prettyMember depth m).length := by
  have hlength := congrArg List.length (prettyMember_append depth m [])
  simp only [List.append_nil, List.length_append, List.length_cons] at hlength
  omega

/-- One member is read, and what stands behind it says whether there is another. -/
theorem members?_step {m : String × Json} (hm : Reads m.2) (done : List (Option String × Json))
    {depth fuel : Nat} {behind rest : List Char} (hbehind : Follows behind)
    (hfuel : (pretty depth m.2).length < fuel) :
    (skipSpace behind = ',' :: rest → members? (fuel + 1) done (prettyMember depth m ++ behind) =
      members? fuel (named m :: done) rest) ∧
    (skipSpace behind = '\x7d' :: rest → members? (fuel + 1) done (prettyMember depth m ++ behind) =
      some (ofMembers (named m :: done).reverse, rest)) := by
  have hblank : ∀ c ∈ [' '], isSpace c = true := by decide
  have hvalue := hm depth fuel behind hbehind hfuel
  rw [← value?_append hblank] at hvalue
  rw [prettyMember_append, members?, skipSpace_cons (by decide)]
  refine ⟨fun hnext => ?_, fun hnext => ?_⟩
  all_goals
    simp only [readString?_quoted, skipSpace_cons (show isSpace ':' = false by decide), hvalue, hnext]
    rfl

theorem members?_pretty {depth : Nat} (outer : Nat) (rest : List Char) {ms : List (String × Json)}
    (hms : ∀ m ∈ ms, Reads m.2) {m : String × Json} (hm : Reads m.2) (done : List (String × Json))
    {fuel : Nat} (hfuel : (prettyMember depth m ++ prettyMembers depth ms).length < fuel) :
    members? (fuel + 1) (done.map named) (prettyMember depth m ++ behindMember depth outer ms rest) =
      some (obj (done.reverse ++ m :: ms), rest) := by
  have hlength := length_prettyMember depth m
  induction ms generalizing m done fuel with
  | nil =>
    simp only [prettyMembers, List.append_nil] at hfuel
    have hbehind : skipSpace (behindMember depth outer [] rest) = '\x7d' :: rest :=
      (skipSpace_append isSpace_of_mem_newline _).trans (skipSpace_cons (by decide) rest)
    rw [(members?_step hm _ (follows_behindMember _ _ _ _) (by omega)).2 hbehind, ← List.map_cons,
      ← List.map_reverse, ofMembers_named, List.reverse_cons]
  | cons w ms ih =>
    obtain ⟨hw, hms⟩ := List.forall_mem_cons.1 hms
    obtain ⟨fuel, rfl⟩ := Nat.exists_eq_add_one_of_ne_zero (by omega : fuel ≠ 0)
    simp only [prettyMembers, List.length_append, List.length_cons] at hfuel
    have hbehind : skipSpace (behindMember depth outer (w :: ms) rest) =
        ',' :: (newline depth ++ (prettyMember depth w ++ behindMember depth outer ms rest)) := by
      rw [behindMember, prettyMembers, List.cons_append, skipSpace_cons (by decide)]
      simp [behindMember]
    rw [(members?_step hm _ (follows_behindMember _ _ _ _) (by omega)).1 hbehind,
      members?_append isSpace_of_mem_newline, ← List.map_cons,
      ih hms hw (m :: done) (by rw [List.length_append]; omega) (length_prettyMember depth w),
      List.reverse_cons, List.append_assoc, List.singleton_append]

theorem reads_obj {ms : List (String × Json)} (hms : ∀ m ∈ ms, Reads m.2) : Reads (obj ms) := by
  rintro depth (_ | fuel) rest - hfuel
  · exact absurd hfuel (Nat.not_lt_zero _)
  · cases ms with
    | nil => rfl
    | cons m ms =>
      have htext : pretty depth (obj (m :: ms)) ++ rest = '\x7b' :: (newline (depth + 1) ++
          (prettyMember (depth + 1) m ++ behindMember (depth + 1) depth ms rest)) := by
        simp [pretty, behindMember]
      obtain ⟨fuel, rfl, hlength⟩ : ∃ k, fuel = k + 1 ∧
          (prettyMember (depth + 1) m ++ prettyMembers (depth + 1) ms).length < k := by
        rw [pretty] at hfuel
        simp only [List.length_cons, List.length_append, newline] at hfuel ⊢
        exact ⟨fuel - 1, by omega, by omega⟩
      obtain ⟨hm, hms⟩ := List.forall_mem_cons.1 hms
      have hmembers := members?_pretty depth rest hms hm [] hlength
      rw [htext, value?_brace, skipSpace_append isSpace_of_mem_newline]
      rw [prettyMember_append] at hmembers ⊢
      rw [skipSpace_cons (by decide)]
      exact hmembers

theorem reads_of_plain {v : Json} (h : Plain v) : Reads v := by
  induction h with
  | null => exact reads_null
  | bool b => exact reads_bool b
  | int n => exact reads_int n
  | str s => exact reads_str s
  | arr h ih => exact reads_arr h ih
  | obj _ ih => exact reads_obj ih

/-- **What is written is read back**, if its numbers are integers and its strings are text. -/
theorem parse?_pretty {v : Json} (h : Plain v) : parse? (pretty 0 v) = some v := by
  have hread := reads_of_plain h 0 (2 * (pretty 0 v).length + 2) [] (by simp [Follows]) (by omega)
  rw [List.append_nil] at hread
  rw [parse?, hread]
  rfl

end DdlBridge.Json
