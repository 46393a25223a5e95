import DdlBridge.Grammar.ColumnType
import DdlBridge.Proofs.Grammar.Alike
import DdlBridge.Proofs.Schema.LetterCase

/-!
# Column types in two spellings

The words of a type are kept in upper case, so they are equal in both spellings. Parameters that stay
in the text of a type are kept as written; no word is looked for behind their parenthesis
(`alike_columnType`).
-/

namespace DdlBridge.Grammar

open DdlBridge.Parser Text

/-! ### The text of a type -/

/-- The text of a type in front of the parameters that stay in it. Keywords are all it is made of. -/
def front (dataType : String) : List Char := dataType.toList.takeWhile (· != '(')

/-- What is seen of a column whose type is being read. -/
def typeView (c : Column) : Column × List Char := (c.lowered, front c.dataType)

theorem front_append_of_mem {s : String} (h : '(' ∈ s.toList) (t : String) :
    front (s ++ t) = front s := by
  rw [front, front, String.toList_append]
  generalize s.toList = cs at h
  induction cs with
  | nil => contradiction
  | cons c cs ih =>
    rw [List.cons_append, List.takeWhile_cons, List.takeWhile_cons]
    split
    case isTrue hc =>
      have hmem : '(' ∈ cs := by
        rcases List.mem_cons.1 h with rfl | hmem
        · contradiction
        · exact hmem
      rw [ih hmem]
    case isFalse => rfl

/-- A type without parameters in it is the same in both spellings. -/
theorem eq_of_front_eq {s s' : String} (hsame : s.toLower = s'.toLower) (hfront : front s = front s')
    (h : '(' ∉ s.toList) : s = s' := by
  have h' : '(' ∉ s'.toList := mt (mem_iff_of_lower_eq rfl (lower_toList_eq hsame)).2 h
  have hall : ∀ cs : List Char, '(' ∉ cs → cs.takeWhile (· != '(') = cs := by
    intro cs hcs
    rw [List.takeWhile_eq_self_iff]
    intro c hc
    exact bne_iff_ne.2 (ne_of_mem_of_not_mem hc hcs)
  apply String.toList_injective
  rwa [front, front, hall _ h, hall _ h'] at hfront

theorem front_append {s s' : String} (hsame : s.toLower = s'.toLower) (hfront : front s = front s')
    (t : String) : front (s ++ t) = front (s' ++ t) := by
  by_cases h : '(' ∈ s.toList
  · have h' : '(' ∈ s'.toList := (mem_iff_of_lower_eq rfl (lower_toList_eq hsame)).1 h
    rw [front_append_of_mem h, front_append_of_mem h', hfront]
  · rw [eq_of_front_eq hsame hfront h]

theorem isPrefixOf_front {needle : List Char} (h : '(' ∉ needle) (s : String) :
    needle.isPrefixOf (front s) = needle.isPrefixOf s.toList := by
  rw [front]
  generalize s.toList = cs
  induction needle generalizing cs with
  | nil => rfl
  | cons k needle ih =>
    have hk : '(' ≠ k := List.ne_of_not_mem_cons h
    have hneedle : '(' ∉ needle := List.not_mem_of_not_mem_cons h
    cases cs with
    | nil => rfl
    | cons c cs =>
      rw [List.takeWhile_cons]
      split
      case isTrue hc => rw [List.isPrefixOf_cons_cons, List.isPrefixOf_cons_cons, ih hneedle]
      case isFalse hc =>
        have hkc : (k == c) = false := by
          rw [beq_eq_false_iff_ne]
          rintro rfl
          exact hc (bne_iff_ne.2 hk.symm)
        rw [List.isPrefixOf_cons_cons, hkc]
        rfl

/-! ### Parameters -/

theorem parameter?_lower (cs : List Char) : parameter? (lower cs) = parameter? cs := by
  have hplus : (lower cs).head? = some '+' ↔ cs.head? = some '+' := head?_lower rfl cs
  have htail : (lower cs).tail = lower cs.tail := List.map_tail.symm
  simp only [parameter?, hplus, htail, ← apply_ite lower, natural?_lower]

theorem typeParameter?_lower (cs : List Char) : typeParameter? (lower cs) = typeParameter? cs := by
  rw [typeParameter?, typeParameter?, words_lower]
  cases words cs with
  | nil => rfl
  | cons number rest =>
    cases rest with
    | nil => exact parameter?_lower number
    | cons unit rest =>
      simp only [List.map_cons, upper_lower, parameter?_lower]

theorem typeParameters_lower (text : List Char) :
    (splitAt (· == ',') (lower text)).mapM typeParameter? =
      (splitAt (· == ',') text).mapM typeParameter? := by
  have hcomma : ∀ c : Char, (c.toLower == ',') = (c == ',') :=
    toLower_of_ascii (· == ',') (by decide)
  rw [splitAt_lower hcomma]
  generalize splitAt (· == ',') text = pieces
  induction pieces with
  | nil => rfl
  | cons piece pieces ih => rw [List.map_cons, List.mapM_cons, List.mapM_cons, typeParameter?_lower, ih]

theorem typeView_withParameters {name name' dataType : String} (hname : name.toLower = name'.toLower)
    {text text' : List Char} (htext : lower text = lower text') :
    typeView (withParameters { name, dataType } text) =
      typeView (withParameters { name := name', dataType } text') := by
  have hparameters : (splitAt (· == ',') text).mapM typeParameter? =
      (splitAt (· == ',') text').mapM typeParameter? := by
    rw [← typeParameters_lower, htext, typeParameters_lower]
  unfold withParameters
  dsimp only
  rw [hparameters]
  generalize (splitAt (· == ',') text').mapM typeParameter? = parameters,
    decide (dataType ∈ numericTypes) = numeric
  split
  · simp [typeView, Column.lowered, hname]
  · simp [typeView, Column.lowered, hname]
  · simp [typeView, Column.lowered, hname]
  · have hfront : ∀ raw, front (dataType ++ "(" ++ raw ++ ")") = front (dataType ++ "(") := by
      intro raw
      have hparen : '(' ∈ (dataType ++ "(").toList := by simp
      rw [front_append_of_mem (by simp), front_append_of_mem hparen]
    simp [typeView, Column.lowered, hname, hfront, toLower_append, ← trim_lower, htext]

/-! ### Types -/

theorem alike_typeWord (words : List String) : Alike id (typeWord words) (typeWord words) :=
  alike_peekKeyword.same fun _ => .ite Iff.rfl (alike_advance.same fun _ => .pure rfl) (.pure rfl)

theorem alike_intervalWord (words : List String) :
    Alike id (intervalWord words) (intervalWord words) := by
  refine (alike_eatAny _).same fun field => ?_
  cases field with
  | some field => exact .pure rfl
  | none =>
    exact (alike_peekIsPunct rfl).same fun _ => .ite Iff.rfl
      (alike_parenthesized.discard.same fun _ => .pure rfl) (.pure rfl)

theorem typeView_append {c c' : Column} (h : typeView c = typeView c') (text : String) :
    typeView { c with dataType := c.dataType ++ text } =
      typeView { c' with dataType := c'.dataType ++ text } := by
  obtain ⟨hlowered, hfront⟩ := Prod.mk.inj h
  have hsame : c.dataType.toLower = c'.dataType.toLower := congrArg Column.dataType hlowered
  have hcolumn := congrArg (fun c : Column => { c with dataType := c.dataType ++ text.toLower }) hlowered
  refine Prod.ext ?_ (front_append hsame hfront text)
  simpa only [typeView, Column.lowered, toLower_append] using hcolumn

theorem alike_timeZone {c c' : Column} (h : typeView c = typeView c') :
    Alike typeView (timeZone c) (timeZone c') := by
  obtain ⟨hlowered, hfront⟩ := Prod.mk.inj h
  have hsame : c.dataType.toLower = c'.dataType.toLower := congrArg Column.dataType hlowered
  have htime : ['T', 'I', 'M', 'E'].isPrefixOf c.dataType.toList =
      ['T', 'I', 'M', 'E'].isPrefixOf c'.dataType.toList := by
    rw [← isPrefixOf_front (by decide), hfront, isPrefixOf_front (by decide)]
  have hzone : ∀ zone : String,
      typeView { c with dataType := c.dataType ++ " " ++ zone ++ " TIME ZONE", length := none } =
        typeView { c' with dataType := c'.dataType ++ " " ++ zone ++ " TIME ZONE", length := none } := by
    intro zone
    have hrest := typeView_append h (" " ++ zone ++ " TIME ZONE")
    simp only [← String.append_assoc] at hrest
    exact congrArg (fun v : Column × List Char => ({ v.1 with length := none }, v.2)) hrest
  refine alike_peekKeyword.same fun word => .ite (by rw [htime]) ?_ (.pure h)
  exact alike_advance.same fun _ => (alike_eatWord _).same fun _ => (alike_expectWords _).same
    fun _ => .pure (hzone _)

theorem alike_signedness {c c' : Column} (h : typeView c = typeView c') :
    Alike (Option.map typeView) (signedness c) (signedness c') := by
  refine (alike_eatAny _).same fun word => ?_
  split
  · exact .pure (congrArg some h)
  · refine .pure (congrArg some ?_)
    rw [String.append_assoc, String.append_assoc]
    exact typeView_append h _
  · exact .pure rfl

theorem alike_arrayBrackets {c c' : Column} (h : typeView c = typeView c') :
    Alike (Option.map typeView) (arrayBrackets c) (arrayBrackets c') := by
  have hresult : Alike (Option.map typeView)
      (do
        expectPunct ']'
        return some { c with dataType := c.dataType ++ "[]" })
      (do
        expectPunct ']'
        return some { c' with dataType := c'.dataType ++ "[]" }) :=
    (alike_expectPunct rfl).same fun _ => .pure (congrArg some (typeView_append h "[]"))
  refine (alike_eatPunct rfl).same fun _ => .ite Iff.rfl (.peek fun t t' ht => ?_) (.pure rfl)
  have hnumber : t.any (·.kind == .number) = t'.any (·.kind == .number) := by
    cases ht with
    | none => rfl
    | some ht => simp only [Option.any_some, ht.kind]
  exact .ite (by rw [hnumber]) (alike_advance.same fun _ => hresult) hresult

theorem withoutSerial_of_mem {c : Column} (h : '(' ∈ c.dataType.toList) : withoutSerial c = c := by
  have hne : ∀ name : String, '(' ∉ name.toList → c.dataType ≠ name := by
    rintro name hname rfl
    exact hname h
  unfold withoutSerial
  dsimp only
  split
  case h_7 => rfl
  all_goals exact absurd ‹_› (hne _ (by decide))

theorem lowered_withoutSerial {c c' : Column} (h : typeView c = typeView c') :
    (withoutSerial c).lowered = (withoutSerial c').lowered := by
  obtain ⟨hlowered, hfront⟩ := Prod.mk.inj h
  have hsame : c.dataType.toLower = c'.dataType.toLower := congrArg Column.dataType hlowered
  by_cases hmem : '(' ∈ c.dataType.toList
  · have hmem' : '(' ∈ c'.dataType.toList :=
      (mem_iff_of_lower_eq rfl (lower_toList_eq hsame)).1 hmem
    rw [withoutSerial_of_mem hmem, withoutSerial_of_mem hmem', hlowered]
  · have hcounting : ∀ dataType,
        { c with dataType, autoIncrement := true, nullable := false }.lowered =
          { c' with dataType, autoIncrement := true, nullable := false }.lowered := fun dataType =>
      congrArg (fun c : Column => { c with
        dataType := dataType.toLower, autoIncrement := true, nullable := false }) hlowered
    unfold withoutSerial
    dsimp only
    rw [eq_of_front_eq hsame hfront hmem]
    generalize c'.dataType = dataType
    split
    case h_7 => exact hlowered
    all_goals exact hcounting _

theorem alike_columnType {name name' : String} (hname : name.toLower = name'.toLower) :
    Alike Column.lowered (columnType name) (columnType name') := by
  have hbare : ∀ dataType, typeView { name, dataType } = typeView { name := name', dataType } := by
    intro dataType
    simp [typeView, Column.lowered, hname]
  have hrest : ∀ c c' : Column, typeView c = typeView c' → Alike Column.lowered
      (do
        let c ← timeZone c
        let c ← many signedness c
        let c ← many arrayBrackets c
        return withoutSerial c)
      (do
        let c ← timeZone c'
        let c ← many signedness c
        let c ← many arrayBrackets c
        return withoutSerial c) := fun c c' hc =>
    (alike_timeZone hc).bind fun _ _ hc =>
      (Alike.many (fun _ _ => alike_signedness) hc).bind fun _ _ hc =>
        (Alike.many (fun _ _ => alike_arrayBrackets) hc).bind fun _ _ hc =>
          .pure (lowered_withoutSerial hc)
  refine .peek fun t t' ht => ?_
  have hfilter : Option.Rel Token.Twin (t.filter (·.kind == .word)) (t'.filter (·.kind == .word)) := by
    cases ht with
    | none => exact .none
    | some ht =>
      rw [Option.filter_some, Option.filter_some, ht.kind]
      split
      · exact .some ht
      · exact .none
  generalize t.filter (·.kind == .word) = first, t'.filter (·.kind == .word) = first' at hfilter
  cases hfilter with
  | none => exact .fail _ _
  | @some first first' hfirst =>
    have hwords : Alike id (many typeWord [first.keyword]) (many typeWord [first'.keyword]) := by
      rw [hfirst.keyword]
      exact .manySame alike_typeWord _
    refine alike_advance.same fun _ => hwords.same fun words => .ite Iff.rfl ?_ ?_
    · exact (Alike.manySame alike_intervalWord words).same fun _ => .pure (congrArg Prod.fst (hbare _))
    · refine (alike_peekIsPunct rfl).same fun _ => .ite Iff.rfl ?_ (hrest _ _ (hbare _))
      exact Alike.bind (f := typeView)
        (.map alike_parenthesized fun _ _ htext => typeView_withParameters hname htext) hrest

end DdlBridge.Grammar
