import DdlBridge.Proofs.Grammar.Script
import DdlBridge.Proofs.Grammar.TypeSize
import DdlBridge.Proofs.Grammar.Yields
import Mathlib.Data.List.Chain

/-!
# Parsed types

The type of every parsed column is the one that a type text makes, or that of an interval
(`ofText_of_parseScript`). So what is printed of it can be compared with a text that is read.
-/

namespace DdlBridge

open Text Atom DdlBridge.Parser DdlBridge.Grammar

/-! ### Words -/

/-- The words of a type, in upper case. -/
structure TypeWords (words : List String) : Prop where
  ne_nil : words ≠ []
  spelled : ∀ w ∈ words, isWordText w = true ∧ upperWord w = w
  chain : words.IsChain (continuesType · · = true)

theorem ne_of_continuesType {last next : String} (h : continuesType last next = true) : next ≠ "" := by
  rintro rfl
  rw [continuesType_eq_false last (by decide)] at h
  contradiction

theorem yields_typeWord {words : List String} (h : TypeWords words) :
    Yields (typeWord words) fun next => ∀ words' ∈ next, TypeWords words' := by
  intro src ts a rest hts hread
  rw [typeWord_eq] at hread
  split at hread
  case isFalse =>
    obtain ⟨rfl, -⟩ := Prod.mk.inj (Except.ok.inj hread)
    exact fun _ hnone => absurd hnone (Option.not_mem_none _)
  case isTrue hcontinues =>
    obtain ⟨rfl, -⟩ := Prod.mk.inj (Except.ok.inj hread)
    rintro words' hsome
    obtain rfl := Option.some.inj hsome
    have hne := ne_of_continuesType hcontinues
    obtain ⟨t, ts', rfl⟩ : ∃ t ts', ts = t :: ts' := by
      cases ts with
      | nil => exact absurd rfl hne
      | cons t ts' => exact ⟨t, ts', rfl⟩
    have hword := (hts t List.mem_cons_self).keyword (Token.kind_of_keyword hne)
    refine ⟨by simp, List.forall_mem_append.2 ⟨h.spelled, List.forall_mem_singleton.2 hword⟩, ?_⟩
    refine List.isChain_append.2 ⟨h.chain, List.IsChain.singleton _, fun x hx y hy => ?_⟩
    obtain rfl := Option.some.inj hy
    rw [Option.mem_def.1 hx] at hcontinues
    exact hcontinues

/-- No other word belongs to the name of an interval. -/
theorem TypeWords.eq_nil_of_interval {words : List String} (h : TypeWords ("INTERVAL" :: words)) :
    words = [] := by
  cases words with
  | nil => rfl
  | cons w words =>
    have hcontinues := (List.isChain_cons_cons.1 h.chain).1
    have hfalse : continuesType "INTERVAL" w = false := by simp [continuesType]
    exact absurd (hcontinues.symm.trans hfalse) (by simp)

theorem ensures_intervalWord {words : List String}
    (h : ∃ fields, words = "INTERVAL" :: fields ∧ ∀ w ∈ fields, w ∈ intervalFields) :
    Ensures (intervalWord words) fun next => ∀ words' ∈ next,
      ∃ fields, words' = "INTERVAL" :: fields ∧ ∀ w ∈ fields, w ∈ intervalFields := by
  refine (ensures_eatAny intervalFields).bind fun found hfound => ?_
  split
  case h_1 field =>
    refine .pure fun words' hsome => ?_
    obtain rfl := Option.some.inj hsome
    obtain ⟨fields, rfl, hfields⟩ := h
    exact ⟨fields ++ [field], rfl, List.forall_mem_append.2 ⟨hfields, by simpa using hfound field rfl⟩⟩
  case h_2 =>
    refine .seq fun _ => .ite (fun _ => .seq fun _ => .pure fun words' hsome => ?_)
      fun _ => .pure fun _ hnone => absurd hnone (Option.not_mem_none _)
    obtain rfl := Option.some.inj hsome
    exact h

/-! ### Suffixes -/

theorem ensures_timeZone_zone (c : Column) : Ensures (timeZone c) fun c' => ∃ zone : List String,
    (zone = [] ∨ zone ∈ timeZones) ∧ (zone ≠ [] → "TIME".toList <+: c.dataType.toList) ∧
      c' = { c.suffixed (textOf (nextWords zone)) with
        length := if zone = [] then c.length else none } := by
  refine .seq fun word => .ite (fun htime => ?_) fun _ => .pure ⟨[], .inl rfl, by simp, ?_⟩
  · have hprefix := List.isPrefixOf_iff_prefix.1 htime.2
    refine .seq fun _ => .seq fun isLocal => .seq fun _ => .pure ?_
    have hzone : ∀ (zone : List String) (dataType : String), zone ∈ timeZones →
        c.dataType ++ String.ofList (textOf (nextWords zone)) = dataType → ∃ zone : List String,
          (zone = [] ∨ zone ∈ timeZones) ∧ (zone ≠ [] → "TIME".toList <+: c.dataType.toList) ∧
            { c with dataType, length := none } = { c.suffixed (textOf (nextWords zone)) with
              length := if zone = [] then c.length else none } := by
      rintro zone _ hmem rfl
      have hne : zone ≠ [] := by
        rintro rfl
        exact absurd hmem (by decide)
      exact ⟨zone, .inr hmem, fun _ => hprefix, by rw [if_neg hne]; rfl⟩
    have happend : ∀ text text', c.dataType ++ text ++ text' = c.dataType ++ (text ++ text') :=
      fun _ _ => String.append_assoc
    rcases htime.1 with rfl | rfl
    all_goals cases isLocal
    · exact hzone ["WITH", "TIME", "ZONE"] _ (by decide) (by rw [happend, happend]; rfl)
    · exact hzone ["WITH", "LOCAL", "TIME", "ZONE"] _ (by decide) (by rw [happend, happend]; rfl)
    · exact hzone ["WITHOUT", "TIME", "ZONE"] _ (by decide) (by rw [happend, happend]; rfl)
    · exact hzone ["WITHOUT", "LOCAL", "TIME", "ZONE"] _ (by decide) (by rw [happend, happend]; rfl)
  · rw [if_pos rfl]
    exact (Column.suffixed_nil c).symm

theorem ensures_signs (c : Column) : Ensures (many signedness c) fun c' => ∃ marks : List String,
    (∀ w ∈ marks, w ∈ signWords) ∧ c' = c.suffixed (textOf (nextWords marks)) := by
  refine Ensures.many ⟨[], by simp, (Column.suffixed_nil c).symm⟩ ?_
  rintro _ ⟨marks, hmarks, rfl⟩
  refine (ensures_eatAny _).bind fun found hfound => ?_
  have hnext : ∀ w ∈ signWords, ∃ marks' : List String, (∀ w ∈ marks', w ∈ signWords) ∧
      { c.suffixed (textOf (nextWords marks)) with
        dataType := (c.suffixed (textOf (nextWords marks))).dataType ++ " " ++ w } =
      c.suffixed (textOf (nextWords marks')) := by
    intro w hw
    refine ⟨marks ++ [w], List.forall_mem_append.2 ⟨hmarks, by simpa using hw⟩, ?_⟩
    have htext : textOf (nextWords (marks ++ [w])) = textOf (nextWords marks) ++ ' ' :: w.toList := by
      rw [textOf_nextWords, textOf_nextWords, List.flatMap_append, List.flatMap_singleton]
    have hword : " " ++ w = String.ofList (' ' :: w.toList) := by
      rw [← String.toList_inj]
      simp
    rw [htext, ← Column.suffixed_suffixed, Column.suffixed.eq_def _ (' ' :: w.toList), ← hword,
      String.append_assoc]
  split
  case h_1 =>
    refine .pure fun c' hsome => ?_
    obtain rfl := Option.some.inj hsome
    exact ⟨marks, hmarks, rfl⟩
  case h_2 word hword =>
    refine .pure fun c' hsome => ?_
    obtain rfl := Option.some.inj hsome
    refine hnext word ?_
    -- `SIGNED` is read and left out, so what is kept is one of the two marks
    have hmem := hfound word rfl
    simp only [signWords, List.mem_cons, List.not_mem_nil, or_false] at hmem ⊢
    rcases hmem with rfl | rfl | rfl
    · exact .inl rfl
    · exact absurd rfl hword
    · exact .inr rfl
  case h_3 => exact .pure fun _ hnone => absurd hnone (Option.not_mem_none _)

theorem textOf_brackets_succ (n : Nat) :
    textOf (brackets (n + 1)) = textOf (brackets n) ++ ['[', ']'] := by
  induction n with
  | zero => rfl
  | succ n ih => exact congrArg (fun cs => '[' :: ']' :: cs) ih

theorem ensures_brackets (c : Column) : Ensures (many arrayBrackets c) fun c' => ∃ n : Nat,
    c' = c.suffixed (textOf (brackets n)) := by
  refine Ensures.many ⟨0, (Column.suffixed_nil c).symm⟩ ?_
  rintro _ ⟨n, rfl⟩
  have hnext : ∀ c' ∈ some { c.suffixed (textOf (brackets n)) with
      dataType := (c.suffixed (textOf (brackets n))).dataType ++ "[]" },
      ∃ k, c' = c.suffixed (textOf (brackets k)) := by
    intro c' hsome
    obtain rfl := Option.some.inj hsome
    refine ⟨n + 1, ?_⟩
    rw [textOf_brackets_succ, ← Column.suffixed_suffixed]
    rfl
  exact .seq fun _ => .ite
    (fun _ => .seq fun _ => .ite (fun _ => .seq fun _ => .seq fun _ => .pure hnext)
      fun _ => .seq fun _ => .pure hnext)
    fun _ => .pure fun _ hnone => absurd hnone (Option.not_mem_none _)

/-! ### Types -/

/-- Two columns have one type. -/
structure Column.SameType (a b : Column) : Prop where
  dataType : a.dataType = b.dataType
  length : a.length = b.length
  precision : a.precision = b.precision
  scale : a.scale = b.scale

/-- All words are in upper case. -/
structure TypeText.Upper (t : TypeText) : Prop where
  words : ∀ w ∈ t.first :: t.more, upperWord w = w
  marks : ∀ w ∈ t.marks, w ∈ signWords

namespace TypeText

variable {t : TypeText}

theorem map_upperWord {ws : List String} (h : ∀ w ∈ ws, upperWord w = w) : ws.map upperWord = ws :=
  (List.map_congr_left h).trans (List.map_id ws)

theorem Upper.words_eq (h : t.Upper) : t.words = joinWith " " (t.first :: t.more) :=
  congrArg (joinWith " ") (map_upperWord h.words)

theorem Upper.textOf_suffix (h : t.Upper) (hzone : t.zone = [] ∨ t.zone ∈ timeZones) :
    upper (textOf t.suffix) = textOf t.suffix := by
  have hzones : ∀ zone ∈ timeZones, ∀ w ∈ zone, upperWord w = w := by decide
  have hsigns : ∀ w ∈ signWords, upperWord w = w := by decide
  have hall : ∀ w ∈ t.zone ++ t.marks, upperWord w = w := by
    intro w hw
    rcases List.mem_append.1 hw with hw | hw
    · exact hzones _ (hzone.resolve_left fun hnil => by simp [hnil] at hw) w hw
    · exact hsigns w (h.marks w hw)
  rw [t.suffix_eq, upper_textOf_marks, upper_textOf_nextWords, map_upperWord hall, textOf_append]

theorem dataType_sized (t : TypeText) (name : String) : (t.sized name).dataType = t.words ∨
    ∃ rest, (t.sized name).dataType.toList = t.words.toList ++ '(' :: rest := by
  unfold sized
  split
  case h_1 => exact .inl rfl
  case h_2 p _ =>
    cases parameterCase { name, dataType := t.words } (trim p) with
    | precision n _ _ heq | length n _ _ heq | scaled n s _ _ heq => exact .inl (by rw [heq])
    | kept _ _ heq => exact .inr ⟨trim (trim p) ++ [')'], by simp [heq, String.toList_append]⟩

/-- What a type starts with, if it has no parenthesis, is in its name. -/
theorem isPrefix_words {text : List Char} (hparen : '(' ∉ text) {name : String}
    (h : text <+: (t.sized name).dataType.toList) : text <+: t.words.toList := by
  rcases t.dataType_sized name with heq | ⟨rest, heq⟩
  · rwa [heq] at h
  · have hname : t.words.toList ++ ['('] <+: (t.sized name).dataType.toList := by
      rw [heq]
      exact ⟨rest, by simp⟩
    rcases List.prefix_or_prefix_of_prefix h hname with hshort | hlong
    · rcases List.prefix_concat_iff.1 hshort with rfl | hprefix
      · exact absurd (List.mem_append_right _ List.mem_cons_self) hparen
      · exact hprefix
    · exact absurd (hlong.subset (List.mem_append_right _ List.mem_cons_self)) hparen

end TypeText

theorem Column.SameType.trans {a b c : Column} (h : SameType a b) (h' : SameType b c) : SameType a c :=
  ⟨h.dataType.trans h'.dataType, h.length.trans h'.length, h.precision.trans h'.precision,
    h.scale.trans h'.scale⟩

/-- An interval with its fields. -/
def intervalColumn (fields : List String) : Column :=
  { name := "x", dataType := joinWith " " ("INTERVAL" :: fields) }

/-- The type of the column is that of an interval or one that a type text makes. -/
def Column.OfText (c : Column) : Prop :=
  (∃ fields, (∀ w ∈ fields, w ∈ intervalFields) ∧ SameType c (intervalColumn fields)) ∨
    ∃ t : TypeText, t.Formed ∧ t.Upper ∧ SameType c (withoutSerial (t.column "x"))

theorem Column.OfText.of_sameType {a b : Column} (h : a.OfText) (hsame : SameType b a) : b.OfText := by
  rcases h with ⟨fields, hfields, htype⟩ | ⟨t, hformed, hupper, htype⟩
  · exact .inl ⟨fields, hfields, hsame.trans htype⟩
  · exact .inr ⟨t, hformed, hupper, hsame.trans htype⟩

theorem sameType_withoutSerial {a b : Column} (h : Column.SameType a b) :
    Column.SameType (withoutSerial a) (withoutSerial b) := by
  obtain ⟨hdata, hlength, hprecision, hscale⟩ := h
  unfold withoutSerial
  dsimp only
  rw [hdata]
  split
  all_goals exact ⟨by first | rfl | exact hdata, hlength, hprecision, hscale⟩

theorem sameType_withParameters {a b : Column} (h : Column.SameType a b) (text : List Char) :
    Column.SameType (withParameters a text) (withParameters b text) := by
  obtain ⟨na, dataType, length, precision, scale⟩ := a
  obtain ⟨nb, dataType', length', precision', scale'⟩ := b
  obtain ⟨rfl, rfl, rfl, rfl⟩ := h
  unfold withParameters
  dsimp only
  generalize (splitAt (· == ',') text).mapM typeParameter? = found
  generalize decide (dataType ∈ numericTypes) = numeric
  rcases found with _ | (_ | ⟨n, _ | ⟨s, _ | _⟩⟩)
  all_goals
    cases numeric
    all_goals exact ⟨rfl, rfl, rfl, rfl⟩

theorem TypeText.sameType_sized (t : TypeText) (a b : String) :
    Column.SameType (t.sized a) (t.sized b) := by
  have hwords : Column.SameType { name := a, dataType := t.words } { name := b, dataType := t.words } :=
    ⟨rfl, rfl, rfl, rfl⟩
  unfold sized
  split
  case h_1 => exact hwords
  case h_2 => exact sameType_withParameters hwords _

theorem TypeText.sameType_column (t : TypeText) (a b : String) :
    Column.SameType (t.column a) (t.column b) := by
  obtain ⟨hdata, hlength, hprecision, hscale⟩ := t.sameType_sized a b
  exact ⟨congrArg (· ++ _) hdata, congrArg (if t.zone = [] then · else none) hlength, hprecision, hscale⟩

/-- A type text makes what is read behind the words. -/
theorem ensures_typeSuffix {t : TypeText} (htypeWords : TypeWords (t.first :: t.more))
    (hinterval : t.first ≠ "INTERVAL") (name : String) : Ensures (typeSuffix (t.sized name)) fun c =>
      ∃ t' : TypeText, t'.Formed ∧ t'.Upper ∧ c = withoutSerial (t'.column name) := by
  refine (ensures_timeZone_zone _).bind fun c hc => ?_
  obtain ⟨zone, hzone, htime, rfl⟩ := hc
  refine (ensures_signs _).bind fun c hc => ?_
  obtain ⟨marks, hmarks, rfl⟩ := hc
  refine (ensures_brackets _).bind fun c hc => .pure ?_
  obtain ⟨arrays, rfl⟩ := hc
  have hsigns : ∀ w ∈ signWords, isWordText w = true ∧ upperWord w ∈ signWords := by decide
  have hupper : ({ t with zone, marks, arrays } : TypeText).Upper :=
    ⟨fun w hw => (htypeWords.spelled w hw).2, hmarks⟩
  have hfirst := (htypeWords.spelled _ List.mem_cons_self).2
  have hmap := TypeText.map_upperWord fun w hw => (htypeWords.spelled w hw).2
  rw [List.map_cons] at hmap
  refine ⟨{ t with zone, marks, arrays }, ⟨fun w hw => (htypeWords.spelled w hw).1, ?_, ?_, hzone,
    fun hne => ?_, fun w hw => hsigns w (hmarks w hw)⟩, hupper, ?_⟩
  · rw [hmap]
    exact htypeWords.chain
  · rw [hfirst]
    exact hinterval
  · exact TypeText.isPrefix_words (by decide) (htime hne)
  · have htext : textOf ({ t with zone, marks, arrays } : TypeText).suffix = textOf (nextWords zone) ++
        (textOf (nextWords marks) ++ textOf (brackets arrays)) := by
      rw [TypeText.suffix, textOf_append, textOf_append]
    have hsized : ({ t with zone, marks, arrays } : TypeText).sized name = t.sized name := rfl
    rw [TypeText.column, hupper.textOf_suffix hzone, htext, hsized, ← Column.suffixed_suffixed,
      ← Column.suffixed_suffixed]
    rfl

theorem ensures_parenthesized : Ensures parenthesized fun text => trim text = text := by
  intro src ts a rest h
  unfold parenthesized at h
  split at h
  case h_1 =>
    split at h
    case isTrue =>
      split at h
      case h_1 =>
        obtain ⟨rfl, -⟩ := Prod.mk.inj (Except.ok.inj h)
        exact Statement.trim_trim _
      case h_2 => contradiction
    case isFalse => contradiction
  case h_2 => contradiction

theorem yields_peek : Yields peek fun next => ∀ t ∈ next, t.Spelled := by
  rintro src ts _ _ hts ⟨⟩
  exact fun t ht => hts t (List.mem_of_head? ht)

theorem ofText_of_column {c : Column} {t : TypeText} {name : String} (hformed : t.Formed)
    (hupper : t.Upper) (h : c = withoutSerial (t.column name)) : c.OfText :=
  .inr ⟨t, hformed, hupper, h ▸ sameType_withoutSerial (t.sameType_column name "x")⟩

theorem yields_columnType (name : String) : Yields (columnType name) Column.OfText := by
  have hrest : ∀ t : TypeText, TypeWords (t.first :: t.more) → t.first ≠ "INTERVAL" →
      Yields (typeSuffix (t.sized name)) Column.OfText := by
    intro t hwords hinterval
    refine ((ensures_typeSuffix hwords hinterval name).imp fun c hc => ?_).yields
    obtain ⟨t', hformed, hupper, hc⟩ := hc
    exact ofText_of_column hformed hupper hc
  refine yields_peek.bind consumes_peek fun next hnext => ?_
  split
  case h_2 => exact (Ensures.fail _).yields
  case h_1 first hfirst =>
    obtain ⟨hfirst, hkind⟩ := Option.filter_eq_some_iff.1 hfirst
    have hword := (hnext first hfirst).keyword (by simpa using hkind)
    have hone : TypeWords [first.keyword] :=
      ⟨List.cons_ne_nil _ _, List.forall_mem_singleton.2 hword, List.IsChain.singleton _⟩
    refine .seq consumes_advance fun _ => Yields.bind (P := TypeWords)
      (.many consumes_typeWord (fun _ => yields_typeWord) hone) (.many consumes_typeWord _)
      fun words hwords => ?_
    obtain ⟨w, ws, rfl⟩ := List.exists_cons_of_ne_nil hwords.ne_nil
    refine .ite (fun hhead => ?_) fun hhead => ?_
    · -- an interval has no more words in its name, and its parameters are dropped
      obtain rfl := Option.some.inj hhead
      obtain rfl := hwords.eq_nil_of_interval
      refine (Ensures.bind (.many ⟨[], rfl, by simp⟩ fun _ => ensures_intervalWord)
        fun words hfields => .pure ?_).yields
      obtain ⟨fields, rfl, hfields⟩ := hfields
      exact .inl ⟨fields, hfields, rfl, rfl, rfl, rfl⟩
    · have hinterval : w ≠ "INTERVAL" := fun heq => hhead (congrArg some heq)
      have htext : ({ first := w, more := ws } : TypeText).words = joinWith " " (w :: ws) :=
        congrArg (joinWith " ") (TypeText.map_upperWord fun v hv => (hwords.spelled v hv).2)
      rw [← htext]
      refine .seq (consumes_peekIsPunct '(') fun _ => .ite (fun _ => ?_) fun _ =>
        hrest { first := w, more := ws } hwords hinterval
      have hsized : Ensures (withParameters
          { name, dataType := TypeText.words { first := w, more := ws } } <$> parenthesized) fun c => ∃ p,
            c = ({ first := w, more := ws, parameters := some p } : TypeText).sized name := by
        refine .map (ensures_parenthesized.imp fun p hp => ⟨p, ?_⟩)
        show _ = withParameters _ (trim p)
        rw [hp]
        rfl
      refine hsized.yields.bind (consumes_parenthesized.map _) fun c hc => ?_
      obtain ⟨p, rfl⟩ := hc
      exact hrest { first := w, more := ws, parameters := some p } hwords hinterval

/-! ### Columns -/

theorem Column.SameType.refl (c : Column) : SameType c c := ⟨rfl, rfl, rfl, rfl⟩

theorem sameType_generated (c : Column) : Ensures (generated c) fun c' => c'.SameType c := by
  have hrest : Ensures (do
      expectWord "AS"
      if ← eatWord "IDENTITY" then
        skipParenthesized
        return { c with autoIncrement := true }
      else
        discard parenthesized
        discard (eatAny ["STORED", "VIRTUAL"])
        return c) fun c' => c'.SameType c :=
    .seq fun _ => .seq fun _ => .ite (fun _ => .seq fun _ => .pure ⟨rfl, rfl, rfl, rfl⟩)
      fun _ => .seq fun _ => .seq fun _ => .pure (.refl c)
  exact .seq fun _ => .ite (fun _ => hrest)
    fun _ => .seq fun _ => .ite (fun _ => .seq fun _ => hrest) fun _ => hrest

/-- Clauses leave the type. -/
theorem sameType_columnClause (draft : ColumnDraft) : Ensures (columnClause draft) fun next =>
    ∀ d ∈ next, d.column.SameType draft.column := by
  have hsome : ∀ d : ColumnDraft, d.column.SameType draft.column →
      ∀ d' ∈ some d, d'.column.SameType draft.column := by
    rintro d hd _ ⟨⟩
    exact hd
  refine .seq fun next => ?_
  split
  case h_2 => exact .pure (by simp)
  refine .ite (fun _ => .pure (by simp)) fun _ => ?_
  dsimp only
  split
  case h_12 => exact .seq fun _ => (sameType_generated draft.column).bind fun c hc => .pure (hsome _ hc)
  case h_1 | h_2 | h_9 | h_10 => exact .seq fun _ => .pure (hsome _ ⟨rfl, rfl, rfl, rfl⟩)
  case h_13 => exact .seq fun _ => .seq fun _ => .seq fun _ => .pure (hsome _ (.refl _))
  all_goals exact .seq fun _ => .seq fun _ => .pure (hsome _ ⟨rfl, rfl, rfl, rfl⟩)

theorem yields_columnDefinition : Yields columnDefinition fun found => found.1.OfText := by
  refine .seq consumes_ident fun name =>
    (yields_columnType name).bind (consumes_columnType name) fun c hc => ?_
  have hclauses : Ensures (many columnClause { column := c }) fun draft => draft.column.SameType c :=
    .many (Column.SameType.refl c) fun draft hdraft =>
      (sameType_columnClause draft).imp fun next hnext d hd => (hnext d hd).trans hdraft
  refine (hclauses.bind fun draft hdraft => .pure ?_).yields
  exact hc.of_sameType hdraft

/-! ### Tables -/

theorem yields_tableElement {table : Table} (h : ∀ c ∈ table.columns, c.OfText) :
    Yields (tableElement table) fun t => ∀ c ∈ t.columns, c.OfText := by
  refine .seq consumes_atConstraint fun _ => .ite (fun _ => ?_) fun _ => ?_
  · exact .seq consumes_tableConstraint fun _ => (Ensures.pure h).yields
  · refine .seq consumes_tokens fun start => yields_columnDefinition.ensures fun found hfound =>
      .ite (fun _ => ?_) fun _ => ?_
    · exact fun _ _ _ _ h => absurd h (by simp)
    · exact .pure (List.forall_mem_append.2 ⟨h, List.forall_mem_singleton.2 hfound⟩)

theorem yields_tableDefinition : Yields tableDefinition fun found =>
    ∀ t ∈ found, ∀ c ∈ t.columns, c.OfText := by
  refine .seq (consumes_expectWord _) fun _ => .seq (consumes_eatWords _).discard fun _ =>
    .seq consumes_objectName fun name => .seq (consumes_eatPunct _) fun _ => .ite (fun _ => ?_)
      fun _ => (Ensures.pure (by simp)).yields
  refine (yields_tableElement (by simp)).bind (consumes_tableElement _) fun first hfirst => ?_
  have hconsumes : ∀ table, Consumes (do
      if ← eatPunct ',' then some <$> tableElement table else return none) := fun table =>
    (consumes_eatPunct ',').bind fun _ => .ite ((consumes_tableElement table).map _) (.pure _)
  refine Yields.bind (P := fun table : Table => ∀ c ∈ table.columns, c.OfText)
    (.many hconsumes (fun table htable => ?_) hfirst) (.many hconsumes _) fun table htable => ?_
  · refine .seq (consumes_eatPunct ',') fun _ => .ite (fun _ => ?_)
      fun _ => (Ensures.pure (by simp)).yields
    refine (yields_tableElement htable).ensures fun t ht => .pure ?_
    exact fun t' hsome => Option.some.inj hsome ▸ ht
  · have hsome : ∀ t ∈ some table, ∀ c ∈ t.columns, c.OfText :=
      fun t hsome => Option.some.inj hsome ▸ htable
    exact (Ensures.seq fun _ => .ite (fun _ => .seq fun _ => .seq fun _ => .pure hsome)
      fun _ => .seq fun _ => .pure hsome).yields

/-! ### Scripts -/

theorem yields_createStatement : Yields createStatement fun s =>
    ∀ t ∈ s.tables, ∀ c ∈ t.columns, c.OfText := by
  have hnone : ∀ s : Schema, s.tables = [] → ∀ t ∈ s.tables, ∀ c ∈ t.columns, c.OfText := by
    intro s hs t ht
    rw [hs] at ht
    exact absurd ht List.not_mem_nil
  refine .seq (consumes_expectWord _) fun _ => .seq consumes_objectHead fun found => ?_
  dsimp only
  split
  case h_1 =>
    refine yields_tableDefinition.ensures fun t? ht => .pure fun t hmem => ?_
    exact ht t (Option.mem_toList.1 hmem)
  case h_5 => exact (Ensures.pure (hnone _ rfl)).yields
  all_goals exact (Ensures.seq fun _ => .pure (hnone _ rfl)).yields

theorem yields_statement : Yields statement fun s => ∀ t ∈ s.tables, ∀ c ∈ t.columns, c.OfText := by
  refine .seq consumes_peek fun next => ?_
  split
  case h_2 => exact (Ensures.pure (by simp)).yields
  exact .ite (fun _ => yields_createStatement) fun _ => .ite (fun _ => (Ensures.pure (by simp)).yields)
    fun _ => (Ensures.fail _).yields

/-- The type of every parsed column is that of an interval or one that a type text makes. -/
theorem ofText_of_parseScript {d : Dialect} {script : List Char} {s : Schema}
    (h : parseScript d script = .ok s) : ∀ t ∈ s.tables, ∀ c ∈ t.columns, c.OfText := by
  refine forall_parseScript (P := fun s => ∀ t ∈ s.tables, ∀ c ∈ t.columns, c.OfText) (by simp)
    (fun _ _ hs hs' => List.forall_mem_append.2 ⟨hs, hs'⟩) (fun s fragment hread => ?_) h
  rw [ofStatement_eq] at hread
  split at hread
  case h_1 rest hread' =>
    obtain rfl := Except.ok.inj hread
    exact yields_statement _ _ _ _ (fun t => Lexer.spelled_of_mem_tokensFrom) hread'
  case h_2 => contradiction

end DdlBridge
