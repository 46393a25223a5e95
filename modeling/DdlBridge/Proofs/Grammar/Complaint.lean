import DdlBridge.Proofs.Grammar.ConstraintName

/-!
# What complaints point at

Every complaint about a statement points at one of its tokens, which the message quotes, or at its
end; where the message quotes no token, the complaint points at a parenthesis that nothing closes or
at a name that an earlier column has (`points_statement`). Wherever a parser has got to, the tokens
left are the end of those it was given, so it is enough to look at each place that complains.
-/

namespace DdlBridge

open DdlBridge.Grammar

namespace Grammar

open DdlBridge.Parser

variable {all ts : List Token}

/-! ### The names of columns -/

theorem name_withParameters (c : Column) (text : List Char) : (withParameters c text).name = c.name := by
  unfold withParameters
  dsimp only
  split
  all_goals rfl

theorem name_withoutSerial (c : Column) : (withoutSerial c).name = c.name := by
  unfold withoutSerial
  dsimp only
  split
  all_goals rfl

theorem name_columnType (name : String) : Ensures (columnType name) fun c => c.name = name := by
  have hrest : ∀ c : Column, c.name = name → Ensures (do
      let c ← timeZone c
      let c ← many signedness c
      let c ← many arrayBrackets c
      return withoutSerial c) fun c => c.name = name := by
    intro c hc
    have hzone : Ensures (timeZone c) fun c => c.name = name :=
      .seq fun _ => .ite (fun _ => .seq fun _ => .seq fun _ => .seq fun _ => .pure hc) fun _ => .pure hc
    refine hzone.bind fun c hc => Ensures.bind (.many hc fun c hc => ?_) fun c hc =>
      Ensures.bind (.many hc fun c hc => ?_) fun c hc => .pure ((name_withoutSerial c).trans hc)
    · refine .seq fun found => ?_
      split
      case h_1 | h_2 => exact .pure (by rintro _ ⟨⟩; exact hc)
      case h_3 => exact .pure (by simp)
    · have hnext : ∀ dataType, ∀ c' ∈ some { c with dataType }, c'.name = name := by
        rintro dataType _ ⟨⟩
        exact hc
      exact .seq fun _ => .ite
        (fun _ => .seq fun _ => .ite (fun _ => .seq fun _ => .seq fun _ => .pure (hnext _))
          fun _ => .seq fun _ => .pure (hnext _))
        fun _ => .pure (by simp)
  refine .seq fun first => ?_
  split
  case h_2 => exact .fail _
  case h_1 =>
    refine .seq fun _ => .seq fun words => .ite (fun _ => .seq fun _ => .pure rfl) fun _ => ?_
    refine .seq fun _ => .ite (fun _ => ?_) fun _ => hrest _ rfl
    exact Ensures.bind (P := fun c => c.name = name)
      (.map ((Ensures.trivial _).imp fun text _ => name_withParameters _ text)) hrest

theorem name_generated (c : Column) : Ensures (generated c) fun c' => c'.name = c.name := by
  have hrest : Ensures (do
      expectWord "AS"
      if ← eatWord "IDENTITY" then
        skipParenthesized
        return { c with autoIncrement := true }
      else
        discard parenthesized
        discard (eatAny ["STORED", "VIRTUAL"])
        return c) fun c' => c'.name = c.name :=
    .seq fun _ => .seq fun _ => .ite (fun _ => .seq fun _ => .pure rfl)
      fun _ => .seq fun _ => .seq fun _ => .pure rfl
  exact .seq fun _ => .ite (fun _ => hrest)
    fun _ => .seq fun _ => .ite (fun _ => .seq fun _ => hrest) fun _ => hrest

theorem name_columnClause (draft : ColumnDraft) : Ensures (columnClause draft) fun next =>
    ∀ draft' ∈ next, draft'.column.name = draft.column.name := by
  have hsome : ∀ draft' : ColumnDraft, draft'.column.name = draft.column.name →
      ∀ d ∈ some draft', d.column.name = draft.column.name := by
    rintro draft' h _ ⟨⟩
    exact h
  refine .seq fun next => ?_
  split
  case h_2 => exact .pure (by simp)
  refine .ite (fun _ => .pure (by simp)) fun _ => ?_
  dsimp only
  split
  case h_1 | h_2 | h_9 | h_10 => exact .seq fun _ => .pure (hsome _ rfl)
  case h_13 => exact .seq fun _ => .seq fun _ => .seq fun _ => .pure (hsome _ rfl)
  -- The one clause whose column comes from a parser of its own.
  case h_12 => exact .seq fun _ => (name_generated _).bind fun c hc => .pure (hsome _ hc)
  all_goals exact .seq fun _ => .seq fun _ => .pure (hsome _ rfl)

/-- A column has the name that its definition starts with. -/
theorem name_columnDefinition {src : Source} {rest : List Token} {column : Column}
    {lifted : List Constraint} (h : columnDefinition src ts = .ok ((column, lifted), rest)) :
    ∃ t more, ts = t :: more ∧ t.ident? = some column.name ∧ rest <:+ more := by
  rw [columnDefinition, bind_eq] at h
  split at h
  case h_2 => contradiction
  case h_1 name more hident =>
    obtain ⟨t, rfl, ht⟩ := of_ident hident
    have hconsumes : Consumes (do
        let draft ← many columnClause { column := ← columnType name }
        return (draft.column, draft.lifted)) :=
      (consumes_columnType name).bind fun _ => (Consumes.many consumes_columnClause _).bind fun _ =>
        .pure _
    have hname : Ensures (do
        let draft ← many columnClause { column := ← columnType name }
        return (draft.column, draft.lifted)) fun found => found.1.name = name := by
      refine (name_columnType name).bind fun c hc => Ensures.bind
        (P := fun draft : ColumnDraft => draft.column.name = name) (.many hc fun draft hdraft => ?_)
        fun draft hdraft => .pure hdraft
      exact (name_columnClause draft).imp fun next hnext d hd => (hnext d hd).trans hdraft
    exact ⟨t, more, rfl, ht.trans (congrArg some (hname src more _ rest h).symm),
      hconsumes src more _ rest h⟩

/-! ### Tables -/

/-- Each column of the table has its name from a token before `ts`. -/
def NamedBefore (all ts : List Token) (table : Table) : Prop :=
  ∀ c ∈ table.columns, ∃ front u middle, all = front ++ u :: (middle ++ ts) ∧ u.ident? = some c.name

theorem NamedBefore.of_suffix {table : Table} {rest : List Token} (h : NamedBefore all ts table)
    (hrest : rest <:+ ts) : NamedBefore all rest table := by
  intro c hc
  obtain ⟨front, u, middle, rfl, hu⟩ := h c hc
  obtain ⟨read, rfl⟩ := hrest
  exact ⟨front, u, middle ++ read, by simp, hu⟩

theorem settles_tableElement {table : Table} {src : Source} (hts : ts <:+ all)
    (hnamed : NamedBefore all ts table) :
    Settles all (fun table' rest => rest <:+ ts ∧ NamedBefore all rest table')
      (tableElement table src ts) := by
  refine (points_atConstraint src ts hts).bind fun isConstraint start hstart => ?_
  have hall := hstart.trans hts
  have hnamed := hnamed.of_suffix hstart
  split
  case isTrue =>
    exact (points_tableConstraint src start hall).bind fun constraint? rest hrest =>
      ⟨hrest.trans hstart, hnamed.of_suffix hrest⟩
  case isFalse =>
    refine Settles.bind (Q := fun all rest => all = start ∧ rest = start) ⟨rfl, rfl⟩ ?_
    rintro _ _ ⟨rfl, rfl⟩
    rename_i start
    refine (points_columnDefinition.settles hall).bind fun found rest hread => ?_
    obtain ⟨column, lifted⟩ := found
    obtain ⟨hread, hrest⟩ := hread
    obtain ⟨t, more, rfl, ht, hmore⟩ := name_columnDefinition hread
    refine Settles.ite (fun hfound => ?_) fun _ => ?_
    -- The name is looked up behind the whole definition; the complaint points back at its start.
    · obtain ⟨c, hc⟩ := Option.isSome_iff_exists.1 hfound
      obtain ⟨front, u, middle, hall, hu⟩ := hnamed c (List.mem_of_find?_eq_some hc)
      have hsame : Text.sameName c.name column.name = true := List.find?_some (p := fun c : Column =>
        Text.sameName c.name column.name) hc
      exact .duplicate hall hu ht hsame
    · refine ⟨hrest.trans hstart, fun c hc => ?_⟩
      rcases List.mem_append.1 hc with hc | hc
      · exact hnamed.of_suffix hrest c hc
      · obtain rfl := List.mem_singleton.1 hc
        obtain ⟨front, hall⟩ := hall
        obtain ⟨middle, rfl⟩ := hmore
        exact ⟨front, t, middle, hall.symm, ht⟩

theorem points_optionArgument (table : String) (u : Unit) : Points all (optionArgument table u) := by
  refine points_peek.bind fun next => ?_
  split
  case h_2 => exact .pure _
  exact .ite (.fail rfl) <| .ite (points_parenthesized.discard.bind fun _ => .pure _) <|
    .ite (.pure _) (points_advance.bind fun _ => .pure _)

theorem points_tableOption (table : String) (u : Unit) : Points all (tableOption table u) := by
  refine points_peek.bind fun next => ?_
  split
  case h_2 => exact .pure _
  exact .ite (points_advance.bind fun _ => .pure _) <| .ite
    (points_advance.bind fun _ => (Points.many (points_optionArgument table) _).map _) (.fail rfl)

theorem points_tableDefinition : Points all tableDefinition := by
  refine (points_expectWord _).bind fun _ => (points_eatWords _).discard.bind fun _ =>
    points_objectName.bind fun name => (points_eatPunct '(').bind fun opened => .ite ?_ (.pure _)
  intro src ts hts
  have hempty : NamedBefore all ts { name } := fun _ hc => absurd hc List.not_mem_nil
  have hcolumns : ∀ ts (table : Table), ts <:+ all → NamedBefore all ts table →
      Settles all (fun next rest => rest <:+ ts ∧ ∀ table' ∈ next, NamedBefore all rest table')
        ((do if ← eatPunct ',' then some <$> tableElement table else return none :
          Parser (Option Table)) src ts) := by
    intro ts table hts hnamed
    refine (points_eatPunct ',' src ts hts).bind fun comma more hmore => ?_
    split
    case isTrue =>
      refine (settles_tableElement (hmore.trans hts) (hnamed.of_suffix hmore)).bind ?_
      rintro table' rest ⟨hrest, hnamed'⟩
      exact ⟨hrest.trans hmore, fun _ h => Option.some.inj h ▸ hnamed'⟩
    case isFalse => exact ⟨hmore, by simp⟩
  refine (settles_tableElement hts hempty).bind ?_
  rintro table rest ⟨hrest, hnamed⟩
  refine (settles_many (NamedBefore all) hcolumns (hrest.trans hts) hnamed).bind fun table more hmore => ?_
  have hoptions : Points all (do
      expectPunct ')'
      if table.columns.isEmpty then fail (.noColumns name)
      discard (many (tableOption name) ())
      return some table) := by
    refine (points_expectPunct _).bind fun _ => .ite ?_ ?_
    · exact (Points.fail rfl).bind fun _ => (Points.many (points_tableOption name) _).discard.bind
        fun _ => .pure _
    · exact (Points.many (points_tableOption name) _).discard.bind fun _ => .pure _
  have hrest' := hmore.trans hrest
  exact (hoptions src more (hrest'.trans hts)).imp fun _ _ h => h.trans hrest'

/-! ### Sequences, views and triggers -/

theorem points_sequenceClause (s : Sequence) : Points all (sequenceClause s) := by
  refine points_peek.bind fun next => ?_
  split
  case h_2 => exact .pure _
  split
  case h_1 | h_2 =>
    exact points_advance.bind fun _ => (points_eatWord _).discard.bind fun _ =>
      points_signedNumber.bind fun _ => .pure _
  case h_3 | h_4 | h_5 =>
    exact points_advance.bind fun _ => points_signedNumber.bind fun _ => .pure _
  case h_6 | h_7 => exact points_advance.bind fun _ => .pure _
  case h_8 | h_9 => exact points_advance.bind fun _ => points_advance.bind fun _ => .pure _
  case h_10 => exact (points_expectWords _).bind fun _ => points_objectName.discard.bind fun _ => .pure _
  case h_11 => exact points_advance.bind fun _ => .pure _

theorem points_sequenceDefinition : Points all sequenceDefinition :=
  (points_expectWord _).bind fun _ => (points_eatWords _).discard.bind fun _ =>
    points_objectName.bind fun _ => .many points_sequenceClause _

theorem points_skipToAs (view : String) : Points all (skipToAs view) := by
  refine .of_consumes (consumes_skipToAs view) fun src ts e _ h => ?_
  unfold skipToAs at h
  split at h
  case h_1 => contradiction
  case h_2 => exact Except.error.inj h ▸ .ending rfl

theorem points_viewDefinition (orReplace : Bool) : Points all (viewDefinition orReplace) := by
  refine (points_expectWord _).bind fun _ => (points_eatWords _).discard.bind fun _ =>
    points_objectName.bind fun name => points_skipParenthesized.bind fun _ =>
      (points_skipToAs name).bind fun _ => points_remainder.bind fun definition => ?_
  exact .ite (.fail rfl) (.pure _)

theorem points_timing : Points all timing := by
  refine points_peekKeyword.bind fun word => ?_
  split
  case h_1 | h_2 | h_3 => exact points_advance.bind fun _ => .pure _
  case h_4 => exact (points_expectWords _).bind fun _ => .pure _
  case h_5 => exact .fail rfl

theorem points_updateColumn (u : Unit) : Points all (updateColumn u) :=
  (points_peekIsPunct ',').bind fun _ => (points_peekAt 1).bind fun _ => .ite
    (points_advance.bind fun _ => points_ident.discard.bind fun _ => .pure _) (.pure _)

theorem points_event : Points all event := by
  refine (points_eatAny _).bind fun found => ?_
  split
  case h_1 | h_2 => exact .pure _
  case h_3 =>
    exact (points_eatWord _).bind fun _ => .ite
      (points_ident.discard.bind fun _ =>
        (Points.many points_updateColumn _).discard.bind fun _ => .pure _)
      (.pure _)
  case h_4 => exact .fail rfl

theorem points_nextEvent (events : List Event) : Points all (nextEvent events) :=
  (points_eatWord _).bind fun _ => .ite (points_event.bind fun _ => .pure _) <|
    (points_eatPunct ',').bind fun _ => .ite (points_event.bind fun _ => .pure _) (.pure _)

theorem points_events : Points all events :=
  points_event.bind fun _ => .many points_nextEvent _

theorem points_referencingName (u : Unit) : Points all (referencingName u) := by
  refine (points_eatAny _).bind fun found => ?_
  split
  case h_1 =>
    exact (points_eatAny _).discard.bind fun _ => (points_eatWord _).discard.bind fun _ =>
      points_ident.discard.bind fun _ => .pure _
  case h_2 => exact .pure _

theorem points_triggerClause (forEachRow : Bool) : Points all (triggerClause forEachRow) :=
  (points_eatWords _).bind fun _ => .ite (.pure _) <|
  (points_eatWords _).bind fun _ => .ite (.pure _) <|
  (points_eatWord _).bind fun _ => .ite
    ((Points.many points_referencingName _).discard.bind fun _ => .pure _) <|
  (points_eatAny _).bind fun _ => .ite (points_objectName.discard.bind fun _ => .pure _) <|
  (points_eatAny _).bind fun _ => .ite (.pure _) (.pure _)

theorem points_triggerBody (trigger : String) : Points all (triggerBody trigger) :=
  points_remainder.bind fun _ => .ite (.fail rfl) (.pure _)

theorem points_withOption (u : Unit) : Points all (withOption u) :=
  (points_eatWord _).bind fun _ => .ite (points_advance.bind fun _ => .pure _) (.pure _)

theorem points_triggerDefinition : Points all triggerDefinition :=
  (points_expectWord _).bind fun _ => (points_eatWords _).discard.bind fun _ =>
    points_objectName.bind fun name => (points_eatWord _).bind fun _ => .ite
      (points_objectName.bind fun _ => (Points.many points_withOption _).discard.bind fun _ =>
        points_timing.bind fun _ => points_events.bind fun _ => (points_eatWords _).discard.bind fun _ =>
          (points_expectWord _).bind fun _ => (points_triggerBody name).bind fun _ => .pure _)
      (points_timing.bind fun _ => points_events.bind fun _ => (points_expectWord _).bind fun _ =>
        points_objectName.bind fun _ => (Points.many points_triggerClause _).bind fun _ =>
          (points_triggerBody name).bind fun _ => .pure _)

/-! ### Statements -/

theorem points_objectHead : Points all objectHead := by
  refine .of_consumes consumes_objectHead fun src ts e _ h => ?_
  unfold objectHead at h
  split at h
  case h_1 => contradiction
  case h_2 => exact Except.error.inj h ▸ .ending rfl

theorem points_createStatement : Points all createStatement := by
  rw [createStatement_eq]
  refine (points_expectWord _).bind fun _ => points_objectHead.bind fun head => ?_
  unfold objectSchema
  split
  case h_1 => exact points_tableDefinition.bind fun _ => .pure _
  case h_2 => exact points_sequenceDefinition.bind fun _ => .pure _
  case h_3 => exact (points_viewDefinition _).bind fun _ => .pure _
  case h_4 => exact points_triggerDefinition.bind fun _ => .pure _
  case h_5 => exact .pure _

theorem points_statement : Points all statement := by
  refine points_peek.bind fun next => ?_
  split
  case h_2 => exact .pure _
  exact .ite points_createStatement (.ite (.pure _) (.fail rfl))

end Grammar

end DdlBridge
