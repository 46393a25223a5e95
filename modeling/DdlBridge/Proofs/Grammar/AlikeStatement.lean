import DdlBridge.Grammar.Script
import DdlBridge.Proofs.Grammar.AlikeType

/-!
# Statements in two spellings

Every production of the grammar is alike on two spellings of a statement, down to the statement
itself (`alike_statement`): keywords are compared in upper case, columns are told apart in lower
case, and nothing else is compared at all.
-/

namespace DdlBridge.Grammar

open DdlBridge.Parser Text

/-! ### Columns -/

theorem alike_refAction : Alike id refAction refAction := by
  refine alike_peekKeyword.same fun word => ?_
  split
  · exact alike_advance.same fun _ => .pure rfl
  · exact alike_advance.same fun _ => .pure rfl
  · exact (alike_expectWords _).same fun _ => .pure rfl
  · refine alike_advance.same fun _ => (alike_eatAny _).same fun target => ?_
    cases target with
    | some target => exact .pure rfl
    | none => exact .fail _ _
  · exact .fail _ _

theorem alike_refClause {fk fk' : Constraint} (h : fk.lowered = fk'.lowered) :
    Alike (Option.map Constraint.lowered) (refClause fk) (refClause fk') := by
  have hsame : Option.map Constraint.lowered (some fk) = Option.map Constraint.lowered (some fk') :=
    congrArg some h
  refine (alike_eatWords _).same fun _ => .ite Iff.rfl (alike_refAction.same fun action => .pure ?_) ?_
  · exact congrArg (fun c : Constraint => some { c with onDelete := some action.toLower }) h
  refine (alike_eatWords _).same fun _ => .ite Iff.rfl (alike_refAction.same fun action => .pure ?_) ?_
  · exact congrArg (fun c : Constraint => some { c with onUpdate := some action.toLower }) h
  refine (alike_eatWord _).same fun _ => .ite Iff.rfl (alike_advance.same fun _ => .pure hsame) ?_
  refine (alike_eatWord _).same fun _ => .ite Iff.rfl (.pure hsame) ?_
  refine (alike_eatWords _).same fun _ => .ite Iff.rfl (.pure hsame) ?_
  exact (alike_eatWord _).same fun _ => .ite Iff.rfl (alike_advance.same fun _ => .pure hsame) (.pure rfl)

theorem alike_references {fk fk' : Constraint} (h : fk.lowered = fk'.lowered) :
    Alike Constraint.lowered (references fk) (references fk') := by
  have hmany : ∀ fk fk' : Constraint, fk.lowered = fk'.lowered →
      Alike Constraint.lowered (many refClause fk) (many refClause fk') := fun _ _ hfk =>
    .many (fun _ _ => alike_refClause) hfk
  refine alike_objectName.bind fun table table' htable => ?_
  have htarget : Constraint.lowered { fk with refTable := some table } =
      Constraint.lowered { fk' with refTable := some table' } :=
    congrArg₂ (fun (c : Constraint) name => { c with refTable := some name }) h htable
  refine (alike_peekIsPunct rfl).same fun _ => .ite Iff.rfl ?_ (hmany _ _ htarget)
  refine alike_columnList.bind fun columns columns' hcolumns => hmany _ _ ?_
  change { Constraint.lowered { fk with refTable := some table } with
      refColumns := columns.map String.toLower } =
    { Constraint.lowered { fk' with refTable := some table' } with
      refColumns := columns'.map String.toLower }
  rw [htarget, hcolumns]

theorem alike_generated {c c' : Column} (h : c.lowered = c'.lowered) :
    Alike Column.lowered (generated c) (generated c') := by
  -- `AS` follows in the same way, whichever words stand in front of it
  refine (alike_eatWord _).same fun _ => .ite Iff.rfl ?_ ((alike_eatWords _).same fun _ =>
    .ite Iff.rfl ((alike_eatWords _).discard.same fun _ => ?_) ?_)
  all_goals
    refine (alike_expectWord _).same fun _ => (alike_eatWord _).same fun _ => .ite Iff.rfl ?_ ?_
    · exact alike_skipParenthesized.same fun _ => .pure
        (congrArg (fun c : Column => { c with autoIncrement := true }) h)
    · exact alike_parenthesized.discard.same fun _ => (alike_eatAny _).discard.same fun _ => .pure h

/-- What is seen of a column definition read so far. -/
def draftView (d : ColumnDraft) : Column × List Constraint × Option String :=
  (d.column.lowered, d.lifted.map Constraint.lowered, d.constraintName.map String.toLower)

theorem draftView_column {d d' : ColumnDraft} (h : draftView d = draftView d') {c c' : Column}
    (hc : c.lowered = c'.lowered) :
    draftView { d with column := c } = draftView { d' with column := c' } := by
  have hrest := congrArg Prod.snd h
  exact Prod.ext hc hrest

theorem draftView_lift {d d' : ColumnDraft} (h : draftView d = draftView d') {c c' : Constraint}
    (hc : c.lowered = c'.lowered) : draftView (d.lift c) = draftView (d'.lift c') := by
  have hcolumn : d.column.lowered = d'.column.lowered := congrArg Prod.fst h
  have hlifted : d.lifted.map Constraint.lowered = d'.lifted.map Constraint.lowered :=
    congrArg (·.2.1) h
  have hname : d.constraintName.map String.toLower = d'.constraintName.map String.toLower :=
    congrArg (·.2.2) h
  have hnamed : Constraint.lowered { c with name := d.constraintName } =
      Constraint.lowered { c' with name := d'.constraintName } :=
    congrArg₂ (fun (c : Constraint) name => { c with name }) hc hname
  simp only [draftView, ColumnDraft.lift, List.map_append, List.map_cons, List.map_nil, hcolumn,
    hlifted, hnamed]

theorem alike_columnClause {d d' : ColumnDraft} (h : draftView d = draftView d') :
    Alike (Option.map draftView) (columnClause d) (columnClause d') := by
  have hcolumn : d.column.lowered = d'.column.lowered := congrArg Prod.fst h
  have hcolumns : [d.column.name.toLower] = [d'.column.name.toLower] :=
    congrArg (fun c : Column => [c.name]) hcolumn
  have hsame : Option.map draftView (some d) = Option.map draftView (some d') := congrArg some h
  have hnext : ∀ f : Column → Column, (∀ c, (f c).lowered = f c.lowered) →
      Option.map draftView (some { d with column := f d.column }) =
        Option.map draftView (some { d' with column := f d'.column }) := by
    intro f hf
    refine congrArg some (draftView_column h ?_)
    rw [hf, hf, hcolumn]
  refine .peek fun t t' ht => ?_
  cases ht with
  | none => exact .pure rfl
  | @some t t' ht =>
    refine .ite (by rw [ht.endsElement]) (.pure rfl) ?_
    simp only [ht.keyword]
    generalize t'.keyword = word
    split
    case h_1 =>
      exact (alike_expectWords _).same fun _ =>
        .pure (hnext (fun c => { c with nullable := false }) fun _ => rfl)
    case h_2 =>
      exact alike_advance.same fun _ => .pure (hnext (fun c => { c with nullable := true }) fun _ => rfl)
    case h_3 =>
      exact (alike_expectWords _).same fun _ => (alike_eatAny _).discard.same fun _ =>
        .pure (hnext (fun c => { c with primaryKey := true, nullable := false }) fun _ => rfl)
    case h_4 =>
      exact alike_advance.same fun _ => (alike_eatWord _).discard.same fun _ =>
        .pure (hnext (fun c => { c with unique := true }) fun _ => rfl)
    case h_5 =>
      refine alike_advance.same fun _ => alike_defaultExpression.bind fun value value' hvalue => .pure ?_
      exact congrArg some (draftView_column h (congrArg₂
        (fun (c : Column) value => { c with defaultValue := some value }) hcolumn
        (toLower_ofList_congr hvalue)))
    case h_6 =>
      refine alike_advance.same fun _ => alike_parenthesized.bind fun text text' htext => .pure ?_
      refine congrArg some (draftView_lift h ?_)
      exact congrArg₂ (fun columns text =>
        ({ kind := .check, columns, expression := some text } : Constraint)) hcolumns
        (toLower_ofList_congr htext)
    case h_7 =>
      refine alike_advance.same fun _ => (alike_references ?_).bind fun fk fk' hfk =>
        .pure (congrArg some (draftView_lift h hfk))
      exact congrArg (fun columns => ({ kind := .foreignKey, columns } : Constraint)) hcolumns
    case h_8 =>
      refine alike_advance.same fun _ => alike_ident.bind fun name name' hname =>
        .pure (congrArg some ?_)
      exact congrArg₂ (fun (v : Column × List Constraint × Option String) name =>
        (v.1, v.2.1, some name)) h hname
    case h_9 | h_10 =>
      exact alike_advance.same fun _ =>
        .pure (hnext (fun c => { c with autoIncrement := true }) fun _ => rfl)
    case h_11 =>
      exact alike_advance.same fun _ => alike_skipParenthesized.same fun _ =>
        .pure (hnext (fun c => { c with autoIncrement := true }) fun _ => rfl)
    case h_12 =>
      exact alike_advance.same fun _ => (alike_generated hcolumn).bind fun c c' hc =>
        .pure (congrArg some (draftView_column h hc))
    case h_13 =>
      exact (alike_expectWords _).same fun _ => alike_advance.same fun _ =>
        alike_skipParenthesized.same fun _ => .pure hsame
    case h_14 | h_15 | h_16 =>
      exact alike_advance.same fun _ => alike_advance.same fun _ => .pure hsame
    case h_17 =>
      exact (alike_expectWords _).same fun _ => alike_advance.same fun _ => .pure hsame
    case h_18 =>
      exact alike_advance.same fun _ => alike_skipParenthesized.same fun _ => .pure hsame

theorem alike_columnDefinition :
    Alike (fun found => (found.1.lowered, found.2.map Constraint.lowered)) columnDefinition
      columnDefinition := by
  refine alike_ident.bind fun name name' hname => (alike_columnType hname).bind fun c c' hc => ?_
  refine Alike.bind (f := draftView) (.many (fun _ _ => alike_columnClause) ?_) fun d d' hd => .pure ?_
  · rw [draftView, draftView, hc]
  · exact congrArg (fun v : Column × List Constraint × Option String => (v.1, v.2.1)) hd

/-! ### Tables -/

theorem alike_optionArgument (table table' : String) (u : Unit) :
    Alike id (optionArgument table u) (optionArgument table' u) := by
  refine .peek fun t t' ht => ?_
  cases ht with
  | none => exact .pure rfl
  | some ht =>
    refine .ite (by rw [ht.isWord]) (.fail _ _) (.ite (by rw [ht.isPunct rfl]) ?_ ?_)
    · exact alike_parenthesized.discard.same fun _ => .pure rfl
    · exact .ite (by rw [ht.isPunct rfl, ht.keyword]) (.pure rfl) (alike_advance.same fun _ => .pure rfl)

theorem alike_tableOption (table table' : String) (u : Unit) :
    Alike id (tableOption table u) (tableOption table' u) := by
  refine .peek fun t t' ht => ?_
  cases ht with
  | none => exact .pure rfl
  | some ht =>
    refine .ite (by rw [ht.isPunct rfl, ht.isPunct rfl]) (alike_advance.same fun _ => .pure rfl) ?_
    refine .ite (by rw [ht.keyword]) (alike_advance.same fun _ => ?_) (.fail _ _)
    exact (Alike.manySame (alike_optionArgument table table') ()).map fun _ _ h => congrArg some h

theorem alike_atConstraint : Alike id atConstraint atConstraint := by
  refine alike_source.bind fun src src' hdialect => alike_peekKeyword.same fun word => ?_
  split
  case h_5 =>
    refine .peekAt 1 fun t t' ht => .pure ?_
    cases ht with
    | none => rfl
    | some ht => exact ht.isWord "KEY"
  case h_6 | h_7 | h_8 | h_9 => exact .pure (by rw [hdialect])
  all_goals exact .pure rfl

theorem alike_skipIndexName : Alike id skipIndexName skipIndexName :=
  (alike_peekIsPunct rfl).same fun _ => .ite Iff.rfl (.pure rfl) alike_ident.discard

theorem alike_constraintBody {name name' : Option String}
    (h : name.map String.toLower = name'.map String.toLower) :
    Alike (Option.map Constraint.lowered) (constraintBody name) (constraintBody name') := by
  have hkey : ∀ kind columns columns', List.map String.toLower columns = List.map String.toLower columns' →
      Constraint.lowered { name, kind, columns } =
        Constraint.lowered { name := name', kind, columns := columns' } := fun kind _ _ hcolumns =>
    congrArg₂ (fun name columns => ({ name, kind, columns } : Constraint)) h hcolumns
  refine alike_peekKeyword.same fun word => ?_
  split
  case h_1 =>
    exact (alike_expectWords _).same fun _ => (alike_eatAny _).discard.same fun _ =>
      alike_columnList.bind fun _ _ hcolumns => alike_skipElement.same fun _ =>
        .pure (congrArg some (hkey _ _ _ hcolumns))
  case h_2 =>
    exact (alike_expectWords _).same fun _ => alike_skipIndexName.same fun _ =>
      alike_columnList.bind fun _ _ hcolumns => (alike_expectWord _).same fun _ =>
        (alike_references (hkey _ _ _ hcolumns)).bind fun _ _ hfk => alike_skipElement.same fun _ =>
          .pure (congrArg some hfk)
  case h_3 =>
    exact alike_advance.same fun _ => (alike_eatAny _).discard.same fun _ =>
      (alike_eatAny _).discard.same fun _ => alike_skipIndexName.same fun _ =>
        alike_columnList.bind fun _ _ hcolumns => alike_skipElement.same fun _ =>
          .pure (congrArg some (hkey _ _ _ hcolumns))
  case h_4 =>
    refine alike_advance.same fun _ => alike_parenthesized.bind fun text text' htext =>
      alike_skipElement.same fun _ => .pure (congrArg some ?_)
    exact congrArg₂ (fun name text => ({ name, kind := .check, expression := some text } : Constraint))
      h (toLower_ofList_congr htext)
  case h_5 | h_6 | h_7 | h_8 => exact alike_skipElement.same fun _ => .pure rfl
  case h_9 => exact .fail _ _

theorem alike_tableConstraint :
    Alike (Option.map Constraint.lowered) tableConstraint tableConstraint := by
  refine (alike_eatWord _).same fun _ => .ite Iff.rfl ?_ (alike_constraintBody rfl)
  exact Alike.bind (f := Option.map String.toLower)
    (alike_ident.map fun _ _ hname => congrArg some hname) fun _ _ hname => alike_constraintBody hname

theorem alike_tableElement {t t' : Table} (h : t.lowered = t'.lowered) :
    Alike Table.lowered (tableElement t) (tableElement t') := by
  obtain ⟨hname, hcolumns, hconstraints⟩ := Table.mk.inj h
  refine alike_atConstraint.same fun _ => .ite Iff.rfl ?_ (.tokens fun start start' hstart => ?_)
  · refine alike_tableConstraint.bind fun c c' hc => .pure ?_
    have hlist := congrArg Option.toList hc
    simp only [Option.toList_map] at hlist
    simp only [Table.lowered, List.map_append, hname, hcolumns, hconstraints, hlist]
  · refine alike_columnDefinition.bind fun found found' hfound => ?_
    obtain ⟨column, lifted⟩ := found
    obtain ⟨column', lifted'⟩ := found'
    obtain ⟨hcolumn, hlifted⟩ := Prod.mk.inj hfound
    have hfind : (t.findColumn column.name).isSome = (t'.findColumn column'.name).isSome := by
      have hcolumnName : column.name.toLower = column'.name.toLower := congrArg Column.name hcolumn
      rw [← t.isSome_findColumn_lowered, h, hcolumnName, t'.isSome_findColumn_lowered]
    refine .ite (by rw [hfind]) (fun _ _ _ _ _ _ => .error (Twins.offset_head? hstart)) (.pure ?_)
    simp only [Table.lowered, List.map_append, List.map_cons, List.map_nil, hname, hcolumns,
      hconstraints, hcolumn, hlifted]

theorem alike_tableDefinition : Alike (Option.map Table.lowered) tableDefinition tableDefinition := by
  refine (alike_expectWord _).same fun _ => (alike_eatWords _).discard.same fun _ =>
    alike_objectName.bind fun name name' hname => (alike_eatPunct rfl).same fun _ =>
      .ite Iff.rfl ?_ (.pure rfl)
  have hempty : Table.lowered { name } = Table.lowered { name := name' } :=
    congrArg (fun name => ({ name } : Table)) hname
  refine (alike_tableElement hempty).bind fun t t' ht => ?_
  refine Alike.bind (f := Table.lowered) (.many (fun t t' ht => ?_) ht) fun t t' ht => ?_
  · exact (alike_eatPunct rfl).same fun _ => .ite Iff.rfl
      ((alike_tableElement ht).map fun _ _ h => congrArg some h) (.pure rfl)
  · have hcolumns : t.columns.isEmpty = t'.columns.isEmpty := by
      have hlowered := congrArg (fun t : Table => t.columns.isEmpty) ht
      simpa only [Table.lowered, List.isEmpty_map] using hlowered
    have hoptions := Alike.manySame (alike_tableOption name name') ()
    refine (alike_expectPunct rfl).same fun _ => .ite (by rw [hcolumns]) ?_ ?_
    · exact Alike.same (.fail _ _) fun _ => hoptions.discard.same fun _ => .pure (congrArg some ht)
    · exact hoptions.discard.same fun _ => .pure (congrArg some ht)

/-! ### Sequences and views -/

theorem alike_sequenceClause {s s' : Sequence} (h : s.lowered = s'.lowered) :
    Alike (Option.map Sequence.lowered) (sequenceClause s) (sequenceClause s') := by
  have hsame : Option.map Sequence.lowered (some s) = Option.map Sequence.lowered (some s') :=
    congrArg some h
  have hnext : ∀ f : Sequence → Sequence, (∀ s, (f s).lowered = f s.lowered) →
      Option.map Sequence.lowered (some (f s)) = Option.map Sequence.lowered (some (f s')) := by
    intro f hf
    refine congrArg some ?_
    rw [hf, hf, h]
  refine .peek fun t t' ht => ?_
  cases ht with
  | none => exact .pure rfl
  | @some t t' ht =>
    simp only [ht.keyword]
    generalize t'.keyword = word
    split
    case h_1 =>
      exact alike_advance.same fun _ => (alike_eatWord _).discard.same fun _ =>
        alike_signedNumber.same fun n => .pure (hnext (fun s => { s with startValue := n }) fun _ => rfl)
    case h_2 =>
      exact alike_advance.same fun _ => (alike_eatWord _).discard.same fun _ =>
        alike_signedNumber.same fun n => .pure (hnext (fun s => { s with incrementBy := n }) fun _ => rfl)
    case h_3 =>
      exact alike_advance.same fun _ => alike_signedNumber.same fun n =>
        .pure (hnext (fun s => { s with minValue := some n }) fun _ => rfl)
    case h_4 =>
      exact alike_advance.same fun _ => alike_signedNumber.same fun n =>
        .pure (hnext (fun s => { s with maxValue := some n }) fun _ => rfl)
    case h_5 =>
      exact alike_advance.same fun _ => alike_signedNumber.same fun n =>
        .pure (hnext (fun s => { s with cache := some n }) fun _ => rfl)
    case h_6 =>
      exact alike_advance.same fun _ => .pure (hnext (fun s => { s with cycle := true }) fun _ => rfl)
    case h_7 =>
      exact alike_advance.same fun _ => .pure (hnext (fun s => { s with cycle := false }) fun _ => rfl)
    case h_8 | h_9 => exact alike_advance.same fun _ => alike_advance.same fun _ => .pure hsame
    case h_10 =>
      exact (alike_expectWords _).same fun _ => alike_objectName.discard.same fun _ => .pure hsame
    case h_11 => exact alike_advance.same fun _ => .pure hsame

theorem alike_sequenceDefinition :
    Alike Sequence.lowered sequenceDefinition sequenceDefinition :=
  (alike_expectWord _).same fun _ => (alike_eatWords _).discard.same fun _ =>
    alike_objectName.bind fun _ _ hname => .many (fun _ _ => alike_sequenceClause)
      (congrArg (fun name => ({ name } : Sequence)) hname)

theorem behindAs?_twins {ts ts' : List Token} (h : Twins ts ts') :
    Option.Rel Twins (behindAs? ts) (behindAs? ts') := by
  induction h with
  | nil => exact .none
  | cons ht hts ih =>
    rw [behindAs?, behindAs?, ht.isWord]
    split
    · exact .some hts
    · exact ih

theorem alike_skipToAs (view view' : String) : Alike id (skipToAs view) (skipToAs view') := by
  intro src src' ts ts' _ hts
  have hbehind := behindAs?_twins hts
  rw [skipToAs, skipToAs]
  generalize behindAs? ts = r, behindAs? ts' = r' at hbehind
  cases hbehind with
  | none => exact .error rfl
  | some hrest => exact .ok rfl hrest

theorem alike_viewDefinition (orReplace : Bool) :
    Alike View.lowered (viewDefinition orReplace) (viewDefinition orReplace) := by
  refine (alike_expectWord _).same fun _ => (alike_eatWords _).discard.same fun _ =>
    alike_objectName.bind fun name name' hname => alike_skipParenthesized.same fun _ =>
      (alike_skipToAs _ _).same fun _ => alike_remainder.bind fun text text' htext => ?_
  have hempty : text.isEmpty = text'.isEmpty := by
    rw [← isEmpty_lower, htext, isEmpty_lower]
  have hview : View.lowered { name, definition := String.ofList text, orReplace } =
      View.lowered { name := name', definition := String.ofList text', orReplace } :=
    congrArg₂ (fun name definition => ({ name, definition, orReplace } : View)) hname
      (toLower_ofList_congr htext)
  exact .ite (by rw [hempty]) (Alike.same (.fail _ _) fun _ => .pure hview) (.pure hview)

/-! ### Triggers -/

theorem alike_timing : Alike id timing timing := by
  refine alike_peekKeyword.same fun word => ?_
  split
  case h_1 | h_2 | h_3 => exact alike_advance.same fun _ => .pure rfl
  case h_4 => exact (alike_expectWords _).same fun _ => .pure rfl
  case h_5 => exact .fail _ _

theorem alike_updateColumn (u : Unit) : Alike id (updateColumn u) (updateColumn u) := by
  refine (alike_peekIsPunct rfl).same fun comma => .peekAt 1 fun t t' ht => ?_
  have hevent : t.any startsEvent = t'.any startsEvent := by
    cases ht with
    | none => rfl
    | some ht => simp only [Option.any_some, startsEvent, ht.isWord]
  exact .ite (by rw [hevent]) (alike_advance.same fun _ => alike_ident.discard.same fun _ => .pure rfl)
    (.pure rfl)

theorem alike_event : Alike id event event := by
  refine (alike_eatAny _).same fun word => ?_
  split
  case h_1 | h_2 => exact .pure rfl
  case h_3 =>
    exact (alike_eatWord _).same fun _ => .ite Iff.rfl
      (alike_ident.discard.same fun _ =>
        (Alike.manySame alike_updateColumn ()).discard.same fun _ => .pure rfl)
      (.pure rfl)
  case h_4 => exact .fail _ _

theorem alike_nextEvent (events : List Event) : Alike id (nextEvent events) (nextEvent events) := by
  refine (alike_eatWord _).same fun _ => .ite Iff.rfl (alike_event.same fun _ => .pure rfl) ?_
  exact (alike_eatPunct rfl).same fun _ => .ite Iff.rfl (alike_event.same fun _ => .pure rfl) (.pure rfl)

theorem alike_events : Alike id events events :=
  alike_event.same fun event => .manySame alike_nextEvent [event]

theorem alike_referencingName (u : Unit) : Alike id (referencingName u) (referencingName u) := by
  refine (alike_eatAny _).same fun word => ?_
  cases word with
  | none => exact .pure rfl
  | some word =>
    exact (alike_eatAny _).discard.same fun _ => (alike_eatWord _).discard.same fun _ =>
      alike_ident.discard.same fun _ => .pure rfl

theorem alike_triggerClause (forEachRow : Bool) :
    Alike id (triggerClause forEachRow) (triggerClause forEachRow) := by
  refine (alike_eatWords _).same fun _ => .ite Iff.rfl (.pure rfl) ?_
  refine (alike_eatWords _).same fun _ => .ite Iff.rfl (.pure rfl) ?_
  refine (alike_eatWord _).same fun _ => .ite Iff.rfl
    ((Alike.manySame alike_referencingName ()).discard.same fun _ => .pure rfl) ?_
  refine (alike_eatAny _).same fun _ => .ite Iff.rfl
    (alike_objectName.discard.same fun _ => .pure rfl) ?_
  exact (alike_eatAny _).same fun _ => .ite Iff.rfl (.pure rfl) (.pure rfl)

theorem alike_triggerBody (trigger trigger' : String) :
    Alike String.toLower (triggerBody trigger) (triggerBody trigger') := by
  refine alike_remainder.bind fun text text' htext => ?_
  have hempty : text.isEmpty = text'.isEmpty := by
    rw [← isEmpty_lower, htext, isEmpty_lower]
  have hbody := toLower_ofList_congr htext
  exact .ite (by rw [hempty]) (Alike.same (.fail _ _) fun _ => .pure hbody) (.pure hbody)

theorem alike_withOption (u : Unit) : Alike id (withOption u) (withOption u) :=
  (alike_eatWord _).same fun _ => .ite Iff.rfl (alike_advance.same fun _ => .pure rfl) (.pure rfl)

theorem alike_triggerDefinition :
    Alike Trigger.lowered triggerDefinition triggerDefinition := by
  have htrigger : ∀ {name name' table table' body body' : String} (timing events forEachRow),
      name.toLower = name'.toLower → table.toLower = table'.toLower → body.toLower = body'.toLower →
        Trigger.lowered { name, table, timing, events, forEachRow, body } = Trigger.lowered
          { name := name', table := table', timing, events, forEachRow, body := body' } := by
    intro name name' table table' body body' timing events forEachRow hname htable hbody
    simp only [Trigger.lowered, hname, htable, hbody]
  refine (alike_expectWord _).same fun _ => (alike_eatWords _).discard.same fun _ =>
    alike_objectName.bind fun name name' hname => (alike_eatWord _).same fun _ => .ite Iff.rfl ?_ ?_
  · exact alike_objectName.bind fun _ _ htable =>
      (Alike.manySame alike_withOption ()).discard.same fun _ =>
        alike_timing.same fun _ => alike_events.same fun _ => (alike_eatWords _).discard.same fun _ =>
          (alike_expectWord _).same fun _ => (alike_triggerBody _ _).bind fun _ _ hbody =>
            .pure (htrigger _ _ _ hname htable hbody)
  · exact alike_timing.same fun _ => alike_events.same fun _ => (alike_expectWord _).same fun _ =>
      alike_objectName.bind fun _ _ htable => (Alike.manySame alike_triggerClause false).same fun _ =>
        (alike_triggerBody _ _).bind fun _ _ hbody => .pure (htrigger _ _ _ hname htable hbody)

/-! ### Statements -/

theorem createHead_twins {ts ts' : List Token} (h : Twins ts ts') (head : CreateHead) :
    Option.Rel (fun a b => (a.1, a.2.1) = (b.1, b.2.1) ∧ Twins a.2.2 b.2.2)
      (createHead head ts) (createHead head ts') := by
  induction h generalizing head with
  | nil => exact .none
  | @cons t t' _ _ ht hts ih =>
    rw [createHead, createHead]
    simp only [ht.keyword]
    cases Object.ofKeyword? t'.keyword with
    | some object => exact .some ⟨rfl, .cons ht hts⟩
    | none =>
      dsimp only
      split
      · exact ih _
      · split
        · exact ih _
        · split
          · exact ih _
          · exact .some ⟨rfl, .cons ht hts⟩

theorem alike_objectHead : Alike id objectHead objectHead := by
  intro src src' ts ts' _ hts
  have hhead := createHead_twins hts {}
  rw [objectHead, objectHead]
  generalize createHead {} ts = r, createHead {} ts' = r' at hhead
  cases hhead with
  | none => exact .error rfl
  | some h => exact .ok h.1 h.2

theorem alike_createStatement : Alike Schema.lowered createStatement createStatement := by
  refine (alike_expectWord _).same fun _ => alike_objectHead.same fun head => ?_
  obtain ⟨head, object⟩ := head
  cases object with
  | none => exact .pure rfl
  | some object =>
    cases object with
    | table =>
      refine alike_tableDefinition.bind fun t t' ht => .pure ?_
      have htables := congrArg Option.toList ht
      simp only [Option.toList_map] at htables
      simp only [Schema.lowered, htables, List.map_nil]
    | sequence =>
      refine alike_sequenceDefinition.bind fun s s' hs => .pure ?_
      simp only [Schema.lowered, List.map_cons, List.map_nil, hs]
    | view =>
      refine (alike_viewDefinition _).bind fun v v' hv => .pure ?_
      simp only [Schema.lowered, List.map_cons, List.map_nil, hv]
    | trigger =>
      refine alike_triggerDefinition.bind fun t t' ht => .pure ?_
      simp only [Schema.lowered, List.map_cons, List.map_nil, ht]

theorem alike_statement : Alike Schema.lowered statement statement := by
  refine .peek fun t t' ht => ?_
  cases ht with
  | none => exact .pure rfl
  | some ht =>
    exact .ite (by rw [ht.keyword]) alike_createStatement
      (.ite (by rw [ht.keyword]) (.pure rfl) (.fail _ _))

end DdlBridge.Grammar
