import DdlBridge.Ddl.Script
import DdlBridge.Proofs.Ddl.Scanning
import DdlBridge.Proofs.Ddl.Writing
import DdlBridge.Proofs.Grammar.Adding
import DdlBridge.Proofs.Grammar.View
import DdlBridge.Proofs.Statement.Ending
import DdlBridge.Proofs.Statement.StoredUnit

/-!
# Views in DDL

The definition of a view stands in its DDL as it was in the script that was parsed, and a `;` is put
behind it. The views come back from their DDL if each definition is read to its end as part of one
statement, and what is put behind it ends that statement (`parse_generated_views`).
-/

namespace DdlBridge

open Text Atom Ddl

variable {d : Dialect} {v : View} {vs : List View} {t : List Char} {schema : Schema}

/-! ### The text -/

/-- The DDL of a view up to the end of its definition. -/
def View.text (d : Dialect) (v : View) : List Char :=
  textOf (viewHead d v) ++ '\n' :: v.definition.toList

/-- What is put behind the definition of a view. -/
def viewEnd : Dialect → List Char
  | .sqlServer => [';', '\n', 'G', 'O', '\n']
  | _ => [';', '\n']

/-- What is put in front of a view. -/
def viewOpening : Dialect → List Char
  | .sqlServer => ['G', 'O', '\n']
  | _ => []

/-- The DDL of views behind another. -/
def nextViews (d : Dialect) (vs : List View) : List Char :=
  vs.flatMap fun v => '\n' :: (viewOpening d ++ (v.text d ++ viewEnd d))

theorem textOf_viewHead (d : Dialect) (v : View) : textOf (viewHead d v) =
    textOf (Atom.create (spell (viewWords d v.orReplace))) ++
      ' ' :: (((Style.of d).quote v.name).toList ++ " AS".toList) := by
  have hparts : viewHead d v = Atom.create (spell (viewWords d v.orReplace)) ++
      [blank ' ', Atom.name d v.name, blank ' ', word "AS".toList] := rfl
  have hblank : (blank ' ').text = [' '] := rfl
  have hend : textOf [blank ' ', word "AS".toList] = " AS".toList := by decide
  rw [hparts, textOf_append, textOf_cons, textOf_cons, text_name, hblank, List.singleton_append, hend]

/-- What stands in front of the name of a view. -/
def viewLead : Dialect → Bool → String
  | .sqlServer, r => "GO\nCREATE " ++ (if r then "OR ALTER " else "") ++ "VIEW "
  | .sqlite, _ => "CREATE VIEW IF NOT EXISTS "
  | _, r => "CREATE " ++ (if r then "OR REPLACE " else "") ++ "VIEW "

theorem toList_viewLead (d : Dialect) (r : Bool) : (viewLead d r).toList =
    viewOpening d ++ (textOf (Atom.create (spell (viewWords d r))) ++ [' ']) := by
  cases d <;> cases r <;> decide

theorem createView_eq (d : Dialect) (v : View) : (Style.of d).createView v =
    viewLead d v.orReplace ++ ((Style.of d).quote v.name ++ " AS\n" ++ v.definition ++ ";") ++
      if d = .sqlServer then "\nGO" else "" := by
  cases d with
  | sqlServer => rfl
  | _ => exact String.append_empty.symm

theorem toList_createView (d : Dialect) (v : View) : ((Style.of d).createView v).toList ++ ['\n'] =
    viewOpening d ++ (v.text d ++ viewEnd d) := by
  have hend : ';' :: ((if d = .sqlServer then "\nGO" else "").toList ++ ['\n']) = viewEnd d := by
    cases d <;> decide
  have has : " AS\n".toList = " AS".toList ++ ['\n'] := rfl
  have hsemicolon : ";".toList = [';'] := rfl
  rw [createView_eq, View.text, textOf_viewHead, ← hend]
  simp only [String.toList_append, toList_viewLead, has, hsemicolon, List.append_assoc,
    List.cons_append, List.nil_append]

theorem exists_generate_views (d : Dialect) (v : View) (vs : List View) : ∃ ddl,
    generate d { views := v :: vs } = .ok ddl ∧
      ddl.toList = viewOpening d ++ (v.text d ++ (viewEnd d ++ nextViews d vs)) := by
  refine ⟨_, rfl, ?_⟩
  have hrest : ∀ vs : List View,
      (vs.flatMap fun w => "\n\n".toList ++ ((Style.of d).createView w).toList) ++ ['\n'] =
        '\n' :: nextViews d vs := by
    intro vs
    induction vs with
    | nil => rfl
    | cons w vs ih =>
      have hnext : nextViews d (w :: vs) =
          '\n' :: (((Style.of d).createView w).toList ++ ['\n']) ++ nextViews d vs := by
        rw [toList_createView]
        rfl
      rw [List.flatMap_cons, List.append_assoc, ih, hnext]
      simp
  show (joinWith "\n\n" (([] : List String) ++ [] ++ (v :: vs).map (Style.of d).createView ++ []) ++
    "\n").toList = _
  rw [List.nil_append, List.nil_append, List.append_nil, List.map_cons, String.toList_append,
    toList_joinWith, List.flatMap_map]
  have hfirst := toList_createView d v
  calc _ = ((Style.of d).createView v).toList ++
        ((vs.flatMap fun w => "\n\n".toList ++ ((Style.of d).createView w).toList) ++ ['\n']) :=
        List.append_assoc _ _ _
    _ = ((Style.of d).createView v).toList ++ ['\n'] ++ nextViews d vs := by
        rw [hrest, ← List.append_cons]
    _ = viewOpening d ++ (v.text d ++ (viewEnd d ++ nextViews d vs)) := by
        rw [hfirst, List.append_assoc, List.append_assoc]

/-! ### Statements -/

open Statement Scanner Grammar

/-- A view whose name and definition can be read back. -/
structure View.Legible (d : Dialect) (v : View) : Prop where
  name : Readable v.name
  definition : Definable d v.definition.toList

/-- The view is read to the end of its definition as part of one statement. -/
def View.Whole (d : Dialect) (v : View) : Prop :=
  Unbroken d.rules (Atom.textOf (viewHead d v)) ('\n' :: v.definition.toList)

/-- What is put behind the definition of the view ends its statement. -/
def View.Ended (d : Dialect) (v : View) : Prop := ¬ CutFree d.rules (v.text d ++ viewEnd d)

instance (d : Dialect) (v : View) : Decidable (v.Whole d) :=
  inferInstanceAs (Decidable (Unbroken _ _ _))

instance (d : Dialect) (v : View) : Decidable (v.Ended d) := inferInstanceAs (Decidable (¬ _))

/-- A line comment at the end of a definition hides the `;` behind it. -/
theorem not_ended_of_lineComment (hlines : LineFree d.rules) (hwhole : v.Whole d)
    (hcomment : (after d.rules (v.text d)).region = .lineComment) : ¬ v.Ended d := by
  have hend : viewEnd d = [';', '\n'] := by
    cases d with
    | sqlServer => exact absurd hlines.2 (by decide)
    | _ => rfl
  have hsemicolon : cutsAt d.rules (v.text d) ';' = false := by
    rw [cutsAt, feedChar_of_lt _ (by decide)]
    simp [step, hcomment]
  have hnewline : cutsAt d.rules (v.text d ++ [';']) '\n' = false := by
    rw [← Bool.not_eq_true]
    intro hcut
    rcases feedChar_restarts (sound_after d.rules _) hcut with ⟨hc, -⟩ | ⟨-, hnot, -⟩
    · exact absurd hc (by decide)
    · exact hnot (by rwa [rules_after])
  rw [View.Ended, not_not, hend, List.append_cons]
  exact cutFree_concat.2 ⟨cutFree_concat.2 ⟨hwhole.cutFree, hsemicolon⟩, hnewline⟩

example : ¬ (View.mk "v" "SELECT 1 -- one" false).Ended .postgres := by decide +kernel

theorem exists_text (d : Dialect) (v : View) : ∃ cs, v.text d = 'C' :: cs := ⟨_, rfl⟩

theorem View.Legible.trimEnd_text (h : v.Legible d) : trimEnd (v.text d) = v.text d := by
  obtain ⟨c, cs, hdefinition, hblank, -⟩ := h.definition.exists_cons
  have hparts : v.text d = Atom.textOf (viewHead d v) ++ ['\n'] ++ c :: cs := by
    rw [View.text, hdefinition, List.append_cons]
  have htrim := h.definition.trimmed
  rw [hdefinition] at htrim
  rw [hparts, trimEnd_append_of_not_blank hblank, htrim]

theorem View.Legible.ofStatement_text (h : v.Legible d) (k : Nat) :
    ofStatement d ⟨k, v.text d⟩ = .ok { views := [v.reread d] } := by
  have hname : Readable v.name := h.name
  have htrivia : (Lexer.takeTrivia d.rules.hashComments ('\n' :: v.definition.toList)).2 =
      v.definition.toList := by
    rw [Lexer.takeTrivia_blank _ (by decide), h.definition.start]
  have hread := ofStatement_viewHead (d := d) hname (y := '\n' :: v.definition.toList)
    (fun c hc => (Option.some.inj hc).symm) k
  dsimp only at hread
  rw [htrivia, h.definition.trim, if_neg (by simpa using h.definition.nonempty),
    String.ofList_toList] at hread
  exact hread

/-- The statement before any end that is put behind it. -/
theorem View.Legible.ofPiece?_text (h : v.Legible d) {u : List Char}
    (hu : u ∈ [[';'], [';', '\n'], viewEnd d]) :
    ofPiece? d.rules 0 (v.text d ++ u) = some ⟨0, v.text d⟩ := by
  have htrim := h.trimEnd_text
  obtain ⟨cs, htext⟩ := exists_text d v
  rw [htext] at htrim ⊢
  have hsemicolon : ofPiece? d.rules 0 ('C' :: cs ++ [';']) = some ⟨0, 'C' :: cs⟩ := by
    rw [ofPiece?_semicolon d.rules 0 (by decide), htrim]
  have hnewline : ofPiece? d.rules 0 ('C' :: cs ++ [';', '\n']) = some ⟨0, 'C' :: cs⟩ := by
    rw [List.append_cons, ofPiece?_append_blanks d.rules 0 _ (by decide), hsemicolon]
  simp only [List.mem_cons, List.not_mem_nil, or_false] at hu
  rcases hu with rfl | rfl | rfl
  · exact hsemicolon
  · exact hnewline
  · cases d with
    | sqlServer =>
      have hlone : LoneTerminator Dialect.sqlServer.rules ['G', 'O'] := .inr ⟨rfl, by decide⟩
      have hgo : ofPiece? Dialect.sqlServer.rules 0 ('C' :: cs ++ [';', '\n'] ++ ['G', 'O']) =
          some ⟨0, trimEnd ('C' :: cs)⟩ :=
        ofPiece?_lone hlone (by decide) ⟨'G', by decide, by decide⟩ (by decide)
      have hparts : 'C' :: cs ++ viewEnd .sqlServer =
          'C' :: cs ++ [';', '\n'] ++ ['G', 'O'] ++ ['\n'] := by simp [viewEnd]
      rw [hparts, ofPiece?_append_blanks _ 0 _ (by decide), hgo, htrim]
    | _ => exact hnewline

/-! ### Scripts -/

/-- Where a statement ends in what is put behind a definition, the rest adds nothing. -/
theorem viewEnd_parts {u w : List Char} {c : Char} (h : viewEnd d = u ++ c :: w)
    (hc : c = ';' ∨ c = '\n') : u ++ [c] ∈ [[';'], [';', '\n'], viewEnd d] ∧
      (c = '\n' ∨ w.head? = some '\n') ∧
      ∀ t schema, Adds d (w ++ t) schema ↔ Adds d t schema := by
  cases d with
  | sqlServer =>
    simp only [viewEnd, List.cons_eq_append_iff, List.nil_eq_append_iff, List.cons.injEq, reduceCtorEq,
      and_false, exists_const, or_false, exists_eq_right, and_or_left, exists_or, ← and_assoc,
      exists_and_right] at h
    rcases h with ⟨⟨rfl, rfl⟩, rfl⟩ | ⟨⟨rfl, rfl⟩, rfl⟩ | ⟨⟨rfl, rfl⟩, rfl⟩ | ⟨⟨rfl, rfl⟩, rfl⟩ |
      ⟨⟨rfl, rfl⟩, rfl⟩
    · exact ⟨by simp, .inr rfl, fun t schema => adds_newline_iff.trans adds_goLine_iff⟩
    · exact ⟨by simp, .inl rfl, fun t schema => adds_goLine_iff⟩
    · exact absurd hc (by decide)
    · exact absurd hc (by decide)
    · exact ⟨by simp [viewEnd], .inl rfl, fun t schema => Iff.rfl⟩
  | _ =>
    simp only [viewEnd, List.cons_eq_append_iff, List.nil_eq_append_iff, List.cons.injEq, reduceCtorEq,
      and_false, exists_const, or_false, exists_eq_right, ← and_assoc, exists_and_right] at h
    rcases h with ⟨⟨rfl, rfl⟩, rfl⟩ | ⟨⟨rfl, rfl⟩, rfl⟩
    · exact ⟨by simp, .inr rfl, fun t schema => adds_newline_iff⟩
    · exact ⟨by simp, .inl rfl, fun t schema => Iff.rfl⟩

theorem content_createView (rules : LexicalRules) : (after rules ['C']).content = true := rfl

/-- Where its end ends it, the statement of a view adds the view. -/
theorem View.Legible.adds_ended_iff (h : v.Legible d) (hwhole : v.Whole d) (hended : v.Ended d) :
    Adds d (v.text d ++ (viewEnd d ++ t)) schema ↔
      ∃ more, Adds d t more ∧ schema = ({ views := [v.reread d] } : Schema).append more := by
  have hwholeFree : CutFree d.rules (v.text d) := hwhole.cutFree
  obtain ⟨u, c, w, hend, hfree, hcut⟩ := exists_cut hwholeFree hended
  have hc := eq_or_eq_of_cutsAt hcut
  obtain ⟨hpiece, hline, hrest⟩ := viewEnd_parts hend hc
  have hparts : v.text d ++ (viewEnd d ++ t) = v.text d ++ u ++ [c] ++ (w ++ t) := by
    rw [hend]
    simp
  have hjoined : Joined d.rules (v.text d ++ u ++ [c]) (w ++ t) := by
    refine joined_of_newline (hline.imp (fun hc => ?_) fun hw => ?_)
    · rw [List.getLast?_concat, hc]
    · rw [List.head?_append, hw]
      rfl
  have hstatement := h.ofPiece?_text hpiece
  rw [← List.append_assoc] at hstatement
  have hcontent : (after d.rules (v.text d ++ u)).content = true :=
    content_of_cutFree_cons (content_createView d.rules) hfree
  have hsplit := split_of_cut hfree hcontent hcut hstatement
  rw [hparts, adds_append_iff (.cut hcut) (.inl hjoined)]
  simp only [adds_singleton_iff hsplit, h.ofStatement_text, hrest]
  constructor
  · rintro ⟨s₁, s₂, ⟨fragment, hfragment, rfl⟩, hadds, rfl⟩
    obtain rfl := Except.ok.inj hfragment
    exact ⟨s₂, hadds, rfl⟩
  · rintro ⟨more, hadds, rfl⟩
    exact ⟨_, more, ⟨_, rfl, rfl⟩, hadds, rfl⟩

/-- The last view is added in any case. -/
theorem View.Legible.adds_last (h : v.Legible d) (hwhole : v.Whole d) :
    Adds d (v.text d ++ viewEnd d) { views := [v.reread d] } := by
  by_cases hended : v.Ended d
  · have hall := (h.adds_ended_iff hwhole hended (t := [])).2 ⟨{}, (adds_iff_of_empty rfl).2 rfl, rfl⟩
    rwa [List.append_nil] at hall
  · have hfree : CutFree d.rules (v.text d ++ viewEnd d) := not_not.1 hended
    have hplain : ∀ c ∈ (viewEnd d).tail, Plain d.rules c := by
      cases d <;> decide
    have hfinished : (after d.rules (v.text d ++ viewEnd d)).unfinished? = none := by
      have hend : viewEnd d = ';' :: (viewEnd d).tail := by cases d <;> rfl
      rw [hend]
      exact (outside_after_semicolon hwhole.closed hplain).unfinished?
    have hcontent : (after d.rules (v.text d ++ viewEnd d)).content = true :=
      content_of_cutFree_cons (content_createView d.rules) hfree
    have hsplit := split_of_cutFree hfree hcontent hfinished (h.ofPiece?_text (by simp))
    exact (adds_singleton_iff hsplit).2 ⟨_, h.ofStatement_text 0, rfl⟩

theorem nextViews_cons (d : Dialect) (v : View) (vs : List View) : nextViews d (v :: vs) =
    '\n' :: (viewOpening d ++ (v.text d ++ (viewEnd d ++ nextViews d vs))) := by
  rw [nextViews, List.flatMap_cons]
  simp [nextViews]

theorem adds_nextViews_iff (v : View) (vs : List View) : Adds d (nextViews d (v :: vs)) schema ↔
    Adds d (v.text d ++ (viewEnd d ++ nextViews d vs)) schema := by
  rw [nextViews_cons, adds_newline_iff]
  cases d with
  | sqlServer => exact adds_goLine_iff
  | _ => exact Iff.rfl

/-- Each view is read to the end of its definition as part of one statement, and the statements of all
but the last end before the next view. -/
structure Separate (d : Dialect) (views : List View) : Prop where
  whole : ∀ v ∈ views, v.Whole d
  ended : ∀ v ∈ views.dropLast, v.Ended d

instance (d : Dialect) (views : List View) : Decidable (Separate d views) :=
  decidable_of_iff ((∀ v ∈ views, v.Whole d) ∧ ∀ v ∈ views.dropLast, v.Ended d)
    ⟨fun h => ⟨h.1, h.2⟩, fun h => ⟨h.whole, h.ended⟩⟩

theorem separate_cons_iff {w : View} : Separate d (v :: w :: vs) ↔
    v.Whole d ∧ v.Ended d ∧ Separate d (w :: vs) := by
  constructor
  · rintro ⟨hwhole, hended⟩
    rw [List.forall_mem_cons] at hwhole
    rw [List.dropLast_cons_cons, List.forall_mem_cons] at hended
    exact ⟨hwhole.1, hended.1, hwhole.2, hended.2⟩
  · rintro ⟨hwhole, hended, hrest⟩
    refine ⟨List.forall_mem_cons.2 ⟨hwhole, hrest.whole⟩, ?_⟩
    rw [List.dropLast_cons_cons]
    exact List.forall_mem_cons.2 ⟨hended, hrest.ended⟩

/-- Separate views are added one after another. -/
theorem Separate.adds (hviews : ∀ w ∈ v :: vs, w.Legible d) (h : Separate d (v :: vs)) :
    Adds d (v.text d ++ (viewEnd d ++ nextViews d vs))
      { views := (v :: vs).map (View.reread d) } := by
  induction vs generalizing v with
  | nil =>
    have hlast := (hviews v List.mem_cons_self).adds_last (h.whole v List.mem_cons_self)
    rwa [nextViews, List.flatMap_nil, List.append_nil]
  | cons w vs ih =>
    rw [List.forall_mem_cons] at hviews
    obtain ⟨hwhole, hended, hrest⟩ := separate_cons_iff.1 h
    exact (hviews.1.adds_ended_iff hwhole hended).2
      ⟨_, (adds_nextViews_iff w vs).2 (ih hviews.2 hrest), rfl⟩

/-! ### The first view of a script -/

theorem cutFree_viewHead (hname : Readable v.name) :
    CutFree d.rules (Atom.textOf (viewHead d v) ++ ['\n']) := by
  have hrow : Row d.rules (viewHead d v) := row_viewHead hname
  have hlong : 3 ≤ 0 + weightOf (lexemesOf (viewHead d v)) := by
    have hcreate : 3 ≤ weightOf (word "CREATE".toList).lexemes := by decide
    rw [viewHead, Atom.create, weightOf_lexemesOf_cons]
    omega
  have hthrough := (filling_fresh d.rules).run hrow.apart.script.formed hrow.calm_lexemesOf
  have hfree := Filling.cutFree_newline hrow.apart.script hlong hthrough
  rwa [textOf_lexemesOf] at hfree

/-- The first view is defined by what the first statement holds behind the head. -/
theorem exists_first_view (hname : Readable v.name) {y : List Char} (hy : ∀ c ∈ y.head?, c = '\n')
    {k : Nat} {more : List Statement}
    (h : define d {} (⟨k, Atom.textOf (viewHead d v) ++ y⟩ :: more) = .ok schema) :
    ∃ later, schema.views = { v.reread d with
      definition := String.ofList (trim (Lexer.takeTrivia d.rules.hashComments y).2) } :: later := by
  obtain ⟨fragment, hfragment, later, hlater⟩ := exists_fragment_of_define h
  rw [ofStatement_viewHead hname hy] at hfragment
  dsimp only at hfragment
  split at hfragment
  case isTrue => exact absurd hfragment (by simp)
  case isFalse =>
    obtain rfl := Except.ok.inj hfragment
    exact ⟨later, hlater.symm⟩

theorem keepsFront_viewHead (d : Dialect) (v : View) :
    KeepsFront d.rules (Atom.textOf (viewHead d v)) := by
  obtain ⟨front, hfront⟩ : ∃ front, Atom.textOf (viewHead d v) = front ++ ['S'] := by
    have has : " AS".toList = [' ', 'A'] ++ ['S'] := rfl
    rw [textOf_viewHead, has, ← List.append_assoc, ← List.cons_append, ← List.append_assoc]
    exact ⟨_, rfl⟩
  rw [hfront]
  exact isPrefix_stripTerminator_of_mark (by decide) (by decide) (by decide)

theorem length_trim_le (cs : List Char) : (trim cs).length ≤ cs.length :=
  (trimEnd_isPrefix _).length_le.trans (List.dropWhile_suffix _).length_le

/-- Where a statement ends in a definition, less of it is read. -/
theorem exists_shorter (hname : Readable v.name) (hcut : ¬ CutFree d.rules (v.text d))
    (h : Adds d (v.text d ++ t) schema) : ∃ w later, schema.views = w :: later ∧
      w.definition.toList.length < v.definition.toList.length := by
  obtain ⟨statements, hsplit, hdefine⟩ := h
  have hparts : v.text d = Atom.textOf (viewHead d v) ++ ['\n'] ++ v.definition.toList :=
    List.append_cons _ _ _
  rw [hparts] at hcut hsplit
  obtain ⟨x, c, rest, hdefinition, hfree, hcut⟩ := exists_cut (cutFree_viewHead hname) hcut
  have hc : c = ';' ∨ c = '\n' := eq_or_eq_of_cutsAt hcut
  obtain ⟨cs, hhead⟩ : ∃ cs, Atom.textOf (viewHead d v) = 'C' :: cs := ⟨_, rfl⟩
  have hkeeps := keepsFront_viewHead d v
  rw [hhead] at hkeeps
  obtain ⟨y, hpiece, hy⟩ := hkeeps.exists_ofPiece?_end (by decide) hc ('\n' :: x)
  have hcontent : (after d.rules ('C' :: cs ++ '\n' :: x)).content = true := by
    rw [List.append_cons, ← hhead]
    exact content_of_cutFree_cons (content_createView d.rules) hfree
  have hscript : 'C' :: cs ++ ['\n'] ++ v.definition.toList ++ t =
      'C' :: cs ++ '\n' :: x ++ c :: (rest ++ t) := by
    rw [hdefinition]
    simp
  rw [hhead, hscript] at hsplit
  rw [hhead, ← List.append_cons] at hfree hcut
  obtain ⟨more, rfl⟩ := exists_split_of_cut hfree hcontent hcut hpiece hsplit
  rw [← hhead] at hdefine
  have hfront : y = [] ∨ ∃ z, y = '\n' :: z ∧ z <+: x := by
    rcases List.prefix_cons_iff.1 hy with rfl | ⟨z, rfl, hz⟩
    · exact .inl rfl
    · exact .inr ⟨z, rfl, hz⟩
  have hshort : (Lexer.takeTrivia d.rules.hashComments y).2.length ≤ x.length := by
    rcases hfront with rfl | ⟨z, rfl, hz⟩
    · rw [Lexer.takeTrivia_nil]
      exact Nat.zero_le _
    · rw [Lexer.takeTrivia_blank _ (by decide)]
      exact (Lexer.length_takeTrivia_le _ z).trans hz.length_le
  have hstart : ∀ e ∈ y.head?, e = '\n' := by
    rcases hfront with rfl | ⟨z, rfl, -⟩
    · simp
    · simp
  obtain ⟨later, hviews⟩ := exists_first_view hname hstart hdefine
  refine ⟨_, later, hviews, ?_⟩
  have htrim := length_trim_le (Lexer.takeTrivia d.rules.hashComments y).2
  show (String.ofList _).toList.length < _
  rw [String.toList_ofList, hdefinition, List.length_append, List.length_cons]
  omega

/-- Where none ends before the next view, more than it is read. -/
theorem exists_longer (h : v.Legible d) (hopen : ¬ ['/', '*'] <+: v.definition.toList) {u : List Char}
    (hfree : CutFree d.rules (v.text d ++ ';' :: u ++ ['C']))
    (hadds : Adds d (v.text d ++ ';' :: u ++ 'C' :: t) schema) : ∃ w later,
      schema.views = w :: later ∧ v.definition.toList.length < w.definition.toList.length := by
  have hname : Readable v.name := h.name
  obtain ⟨statements, hsplit, hdefine⟩ := hadds
  obtain ⟨cs, hfront⟩ : ∃ cs, v.text d ++ ';' :: u ++ ['C'] = 'C' :: cs := ⟨_, rfl⟩
  have hkeeps : KeepsFront d.rules (v.text d ++ ';' :: u ++ ['C']) :=
    isPrefix_stripTerminator_of_mark (by decide) (by decide) (by decide)
  rw [List.append_cons _ 'C' t, hfront] at hsplit
  rw [hfront] at hkeeps hfree
  obtain ⟨s, more, rfl, z, hz⟩ := exists_split_of_front hkeeps (by decide) (content_createView d.rules)
    hfree hsplit
  obtain ⟨k, text⟩ := s
  have hread : Lexer.takeTrivia d.rules.hashComments
      ('\n' :: (v.definition.toList ++ ';' :: (u ++ 'C' :: z))) =
      (['\n'], v.definition.toList ++ ';' :: (u ++ 'C' :: z)) := by
    rw [Lexer.takeTrivia_blank _ (by decide), h.definition.takeTrivia_append hopen]
  obtain rfl : Atom.textOf (viewHead d v) ++
      '\n' :: (v.definition.toList ++ ';' :: (u ++ 'C' :: z)) = text := by
    rw [← hfront] at hz
    refine Eq.trans ?_ hz
    rw [View.text]
    simp
  obtain ⟨later, hviews⟩ := exists_first_view hname
    (y := '\n' :: (v.definition.toList ++ ';' :: (u ++ 'C' :: z)))
    (fun c hc => (Option.some.inj hc).symm) hdefine
  refine ⟨_, later, hviews, ?_⟩
  obtain ⟨c, cs, hdefinition, hblank, -⟩ := h.definition.exists_cons
  obtain ⟨rest, hrest⟩ := exists_trimEnd (c := ';') (by decide) (u ++ 'C' :: z)
  show _ < (String.ofList (trim _)).toList.length
  rw [String.toList_ofList, hread, trim]
  have hstart : trimStart (v.definition.toList ++ ';' :: (u ++ 'C' :: z)) =
      v.definition.toList ++ ';' :: (u ++ 'C' :: z) := by
    rw [hdefinition]
    exact List.dropWhile_cons_of_neg (by rw [hblank]; simp)
  rw [hstart, trimEnd_append_of_not_blank (by decide), hrest, List.length_append, List.length_cons]
  omega

/-! ### The round trip -/

/-- What is kept of a view. -/
def View.key (v : View) : String × String := (v.name, v.definition)

/-- A statement that something keeps open, or that its end does not end, goes on with the next view. -/
theorem cutFree_nextView {cs : List Char} (hfree : CutFree d.rules cs)
    (h : (after d.rules cs).unfinished? = none → CutFree d.rules (cs ++ viewEnd d)) :
    CutFree d.rules (cs ++ ';' :: ((viewEnd d).tail ++ '\n' :: viewOpening d) ++ ['C']) := by
  by_cases hdone : (after d.rules cs).unfinished? = none
  · have hend := h hdone
    cases d with
    | sqlServer => exact absurd hend (not_cutFree_go rfl hdone)
    | _ =>
      have hnext := cutFree_nextLine hdone hend (c := 'C') (by decide) (by decide)
      simpa [viewEnd, viewOpening] using hnext
  · have hplain : ∀ c ∈ ';' :: ((viewEnd d).tail ++ '\n' :: viewOpening d) ++ ['C'],
        c.toNat < 128 ∧ c ∉ enders := by
      cases d <;> decide
    rw [List.append_assoc]
    exact (unfinished_append hfree hdone hplain).1

theorem length_eq_of_keys {w : View} {later : List View} {keys : List (String × String)}
    (hviews : schema.views = w :: later) (hkeys : schema.views.map View.key = v.key :: keys) :
    w.definition.toList.length = v.definition.toList.length := by
  rw [hviews, List.map_cons] at hkeys
  have hdefinition : w.definition = v.definition := congrArg Prod.snd (List.cons.inj hkeys).1
  rw [hdefinition]

theorem cutFree_of_keys (hname : Readable v.name) (hadds : Adds d (v.text d ++ t) schema)
    {keys : List (String × String)} (hkeys : schema.views.map View.key = v.key :: keys) :
    CutFree d.rules (v.text d) := by
  by_contra hcut
  obtain ⟨w, later, hviews, hlt⟩ := exists_shorter hname hcut hadds
  have heq := length_eq_of_keys hviews hkeys
  omega

/-- Views that come back from their DDL are separate. -/
theorem Separate.of_adds
    (hviews : ∀ w ∈ v :: vs, w.Legible d ∧ ¬ ['/', '*'] <+: w.definition.toList)
    (hadds : Adds d (v.text d ++ (viewEnd d ++ nextViews d vs)) schema)
    (hkeys : schema.views.map View.key = (v :: vs).map View.key) : Separate d (v :: vs) := by
  induction vs generalizing v schema with
  | nil =>
    have hfree := cutFree_of_keys (hviews v List.mem_cons_self).1.name hadds hkeys
    have hdone : (after d.rules (v.text d)).unfinished? = none := by
      by_contra hdone
      have hplain : ∀ c ∈ viewEnd d, c.toNat < 128 ∧ c ∉ enders := by cases d <;> decide
      obtain ⟨-, hall⟩ := unfinished_append hfree hdone hplain
      obtain ⟨e, he⟩ := Option.ne_none_iff_exists'.1 hall
      have hscript : v.text d ++ (viewEnd d ++ nextViews d []) = v.text d ++ viewEnd d := by
        rw [nextViews, List.flatMap_nil, List.append_nil]
      rw [hscript] at hadds
      exact not_adds_of_error (split_of_unfinished he) hadds
    have hwhole : v.Whole d := ⟨hfree, hdone⟩
    exact ⟨fun w hw => List.mem_singleton.1 hw ▸ hwhole, fun w hw => absurd hw (by simp)⟩
  | cons w vs ih =>
    rw [List.forall_mem_cons] at hviews
    obtain ⟨⟨hlegible, hopen⟩, hrest⟩ := hviews
    have hfree := cutFree_of_keys hlegible.name hadds hkeys
    have hends : ¬ ((after d.rules (v.text d)).unfinished? = none →
        CutFree d.rules (v.text d ++ viewEnd d)) := by
      intro hcutFree
      obtain ⟨cs, htext⟩ := exists_text d w
      have hscript : v.text d ++ (viewEnd d ++ nextViews d (w :: vs)) =
          v.text d ++ ';' :: ((viewEnd d).tail ++ '\n' :: viewOpening d) ++
            'C' :: (cs ++ (viewEnd d ++ nextViews d vs)) := by
        rw [nextViews_cons, htext]
        cases d <;> simp [viewEnd, viewOpening]
      rw [hscript] at hadds
      obtain ⟨x, later, hfirst, hlt⟩ := exists_longer hlegible hopen
        (cutFree_nextView hfree hcutFree) hadds
      have heq := length_eq_of_keys hfirst hkeys
      omega
    obtain ⟨hdone, hended⟩ := Classical.not_imp.1 hends
    have hwhole : v.Whole d := ⟨hfree, hdone⟩
    obtain ⟨more, hmore, rfl⟩ := (hlegible.adds_ended_iff hwhole hended).1 hadds
    rw [adds_nextViews_iff] at hmore
    exact separate_cons_iff.2 ⟨hwhole, hended, ih hrest hmore (List.cons.inj hkeys).2⟩

/-- The views of a script come back from their DDL if they are separate. If they come back, they are
separate, unless a definition opens a comment that it never closes. -/
theorem parse_generated_views {sql : String} {s : Schema} (h : parse d sql = .ok s)
    (hne : s.views ≠ []) (hnames : ∀ v ∈ s.views, PlainName v.name) : ∃ ddl,
      generate d { views := s.views } = .ok ddl ∧
      (Separate d s.views → parse d ddl = .ok { views := s.views.map (View.reread d) }) ∧
      ((∀ v ∈ s.views, ¬ ['/', '*'] <+: v.definition.toList) → ∀ s', parse d ddl = .ok s' →
        s'.views.map View.key = s.views.map View.key → Separate d s.views) := by
  have hdefinable := definable_of_parseScript h
  generalize s.views = views at hne hnames hdefinable ⊢
  obtain ⟨v, vs, rfl⟩ := List.exists_cons_of_ne_nil hne
  have hlegible : ∀ w ∈ v :: vs, w.Legible d := fun w hw =>
    ⟨(hnames w hw).readable, hdefinable w hw⟩
  obtain ⟨ddl, hgenerate, hddl⟩ := exists_generate_views d v vs
  have hparse : ∀ s', parse d ddl = .ok s' ↔
      Adds d (v.text d ++ (viewEnd d ++ nextViews d vs)) s' := by
    intro s'
    have hscript : (trim ddl.toList).isEmpty = false := by
      rw [hddl, isEmpty_trim_eq_false]
      obtain ⟨cs, htext⟩ := exists_text d v
      exact ⟨'C', by simp [htext], by decide⟩
    rw [parse, parseScript_eq_ok_iff hscript, hddl]
    cases d with
    | sqlServer => exact adds_goLine_iff
    | _ => exact Iff.rfl
  refine ⟨ddl, hgenerate, fun hseparate => ?_, fun hopen s' hs' hkeys => ?_⟩
  · exact (hparse _).2 (hseparate.adds hlegible)
  · exact .of_adds (fun w hw => ⟨hlegible w hw, hopen w hw⟩) ((hparse s').1 hs') hkeys

/-- The definitions hold a `;` in a comment and in a literal. -/
def annotated : List View :=
  [{ name := "v", definition := "SELECT 1 -- one; two\n + 1" },
    { name := "order", definition := "SELECT ';' /* ; */" }]

theorem parse_generated_views_annotated :
    (parse .postgres ("CREATE VIEW v AS SELECT 1 -- one; two\n + 1;" ++
        "CREATE VIEW \"order\" AS /* 2 */ SELECT ';' /* ; */;") = .ok { views := annotated } ∧
      annotated ≠ [] ∧ ∀ v ∈ annotated, PlainName v.name) ∧
    ∃ ddl, generate .postgres { views := annotated } = .ok ddl ∧
      parse .postgres ddl = .ok { views := annotated } := by
  have hparse : parse .postgres ("CREATE VIEW v AS SELECT 1 -- one; two\n + 1;" ++
      "CREATE VIEW \"order\" AS /* 2 */ SELECT ';' /* ; */;") = .ok { views := annotated } := by
    decide +kernel
  refine ⟨⟨hparse, by decide, by decide⟩, ?_⟩
  obtain ⟨ddl, hgenerate, hback, -⟩ := parse_generated_views hparse (by decide) (by decide)
  exact ⟨ddl, hgenerate, hback (by decide +kernel)⟩

end DdlBridge
