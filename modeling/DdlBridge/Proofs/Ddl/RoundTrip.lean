import DdlBridge.Proofs.Ddl.Normal

/-!
# Generating and parsing

The DDL of a schema of tables and sequences in normal form is parsed into the schema
(`exists_generate_parse`), in every dialect.
-/

namespace DdlBridge

open Text Atom Ddl

variable {d : Dialect}

/-- A schema of tables and sequences that DDL can say. MySQL and SQLite have no sequences. -/
structure Schema.Normal (d : Dialect) (s : Schema) : Prop where
  name : s.name = ""
  nonempty : s.tables ≠ [] ∨ s.sequences ≠ []
  views : s.views = []
  triggers : s.triggers = []
  tables : ∀ t ∈ s.tables, t.Normal d
  sequences : ∀ q ∈ s.sequences, PlainName q.name
  counting : d = .mysql ∨ d = .sqlite → s.sequences = []

/-! ### The statements of a schema -/

theorem defines_sequence {q : Sequence} (hname : Readable q.name) :
    Defines d (Atom.sequence d q) { sequences := [q] } := by
  have hscanned := scanned_sequence (d := d) hname
  exact ⟨hscanned, firm_sequence d q, fun _ hs => ofStatement_sequence hs hscanned.apart⟩

theorem mapM_of_ok {α β ε : Type} {f : α → Except ε β} {g : α → β} {xs : List α}
    (h : ∀ x ∈ xs, f x = .ok (g x)) : xs.mapM f = .ok (xs.map g) := by
  induction xs with
  | nil => rfl
  | cons x xs ih =>
    rw [List.forall_mem_cons] at h
    rw [List.mapM_cons, h.1, ih h.2]
    rfl

/-- The statement that defines each table and each sequence, with the fragment it adds. -/
def Schema.parts (d : Dialect) (s : Schema) (table : Table → List Atom) : List (List Atom × Schema) :=
  s.sequences.map (fun q => (Atom.sequence d q, { sequences := [q] })) ++
    s.tables.map fun t => (table t, { tables := [t] })

theorem foldl_parts {s : Schema} (h : s.Normal d) (table : Table → List Atom) :
    ((s.parts d table).map Prod.snd).foldl Schema.append {} = s := by
  have hsequences : ∀ (qs : List Sequence) (u : Schema),
      (qs.map fun q => ({ sequences := [q] } : Schema)).foldl Schema.append u =
        { u with sequences := u.sequences ++ qs } := by
    intro qs
    induction qs with
    | nil => exact fun u => by rw [List.append_nil]; rfl
    | cons q qs ih =>
      intro u
      rw [List.map_cons, List.foldl_cons, ih]
      simp [Schema.append]
  have htables : ∀ (ts : List Table) (u : Schema),
      (ts.map fun t => ({ tables := [t] } : Schema)).foldl Schema.append u =
        { u with tables := u.tables ++ ts } := by
    intro ts
    induction ts with
    | nil => exact fun u => by rw [List.append_nil]; rfl
    | cons t ts ih =>
      intro u
      rw [List.map_cons, List.foldl_cons, ih]
      simp [Schema.append]
  rw [Schema.parts, List.map_append, List.map_map, List.map_map, List.foldl_append]
  show (s.tables.map fun t => ({ tables := [t] } : Schema)).foldl Schema.append
    ((s.sequences.map fun q => ({ sequences := [q] } : Schema)).foldl Schema.append {}) = s
  rw [hsequences, htables]
  obtain ⟨name, tables, sequences, views, triggers⟩ := s
  obtain ⟨rfl, -, rfl, rfl, -⟩ := h
  rfl

theorem toList_script (as : List Atom) (ass : List (List Atom)) :
    (joinWith "\n\n" ((as :: ass).map fun as => String.ofList (statementText as)) ++ "\n").toList =
      statementText as ++ scriptTail ass := by
  have htail : ∀ ass : List (List Atom), scriptTail ass =
      (ass.flatMap fun as => "\n\n".toList ++ statementText as) ++ "\n".toList := by
    intro ass
    induction ass with
    | nil => rfl
    | cons as ass ih =>
      rw [scriptTail, ih, List.flatMap_cons, List.append_assoc, List.append_assoc]
      rfl
  have hflat : (ass.map fun as => String.ofList (statementText as)).flatMap
      (fun t => "\n\n".toList ++ t.toList) = ass.flatMap fun as => "\n\n".toList ++ statementText as := by
    rw [List.flatMap_map]
    refine congrArg ass.flatMap (funext fun as => ?_)
    have htext : (String.ofList (statementText as)).toList = statementText as := String.toList_ofList
    rw [htext]
  have hfirst : (String.ofList (statementText as)).toList = statementText as := String.toList_ofList
  rw [List.map_cons, String.toList_append, toList_joinWith, hflat, hfirst, htail, List.append_assoc]

theorem defines_parts {s : Schema} (h : s.Normal d) {table : Table → List Atom}
    (htable : ∀ t ∈ s.tables, Defines d (table t) { tables := [t] }) :
    ∀ p ∈ s.parts d table, Defines d p.1 p.2 := by
  intro p hp
  rcases List.mem_append.1 hp with hp | hp
  · obtain ⟨q, hq, rfl⟩ := List.mem_map.1 hp
    exact defines_sequence (h.sequences q hq).readable
  · obtain ⟨t, ht, rfl⟩ := List.mem_map.1 hp
    exact htable t ht

theorem generate_parts {s : Schema} (h : s.Normal d) {table : Table → List Atom}
    (htable : ∀ t ∈ s.tables,
      (Style.of d).createTable t = .ok (String.ofList (statementText (table t)))) :
    generate d s = .ok (joinWith "\n\n" (((s.parts d table).map Prod.fst).map
      fun as => String.ofList (statementText as)) ++ "\n") := by
  have hsequences : s.sequences.map (Style.of d).createSequence =
      s.sequences.map fun q => String.ofList (statementText (Atom.sequence d q)) := by
    refine List.map_congr_left fun q hq => ?_
    have hd : ¬ (d = .mysql ∨ d = .sqlite) := by
      intro hd
      rw [h.counting hd] at hq
      exact absurd hq (by simp)
    rw [not_or] at hd
    rw [createSequence_eq hd.1 hd.2, Atom.textOf_append]
    rfl
  have hempty : s.isEmpty = false := by
    rcases h.nonempty with hne | hne
    all_goals simp [Schema.isEmpty, hne]
  have hstatements : s.sequences.map (Style.of d).createSequence ++
      s.tables.map (fun t => String.ofList (statementText (table t))) ++
      s.views.map (Style.of d).createView ++ s.triggers.map (Style.of d).createTrigger =
      ((s.parts d table).map Prod.fst).map fun as => String.ofList (statementText as) := by
    rw [hsequences, h.views, h.triggers]
    simp [Schema.parts, Function.comp_def]
  rw [generate, Style.writeSchema, hempty, mapM_of_ok htable, ← hstatements]
  rfl

/-! ### The round trip -/

theorem exists_generate_parse (d : Dialect) (s : Schema) (h : s.Normal d) :
    ∃ ddl, generate d s = .ok ddl ∧ parse d ddl = .ok s := by
  choose! table hdefines hcreate using fun t (ht : Table.Normal d t) => exists_table ht
  have hgenerate := generate_parts h fun t ht => hcreate t (h.tables t ht)
  have hdefines := defines_parts h fun t ht => hdefines t (h.tables t ht)
  have hfold := foldl_parts h table
  have hparts : s.parts d table ≠ [] := by
    rcases h.nonempty with hne | hne
    all_goals simp [Schema.parts, hne]
  obtain ⟨p, ps, hsplit⟩ := List.exists_cons_of_ne_nil hparts
  rw [hsplit] at hgenerate hdefines hfold
  rw [List.forall_mem_cons] at hdefines
  refine ⟨_, hgenerate, ?_⟩
  rw [parse, List.map_cons, toList_script, parseScript_statements hdefines.1 hdefines.2]
  exact congrArg Except.ok hfold

/-- Orders and their numbers, as Oracle may have them. -/
def orders : Schema where
  name := ""
  tables := [{
    name := "order"
    columns := [
      { name := "id", dataType := "NUMBER", precision := some 10, nullable := false,
        primaryKey := true, autoIncrement := true },
      { name := "Note", dataType := "VARCHAR2", length := some 50, unique := true,
        defaultValue := some "';'''" },
      { name := "total", dataType := "DECIMAL", precision := some 10, scale := some 2,
        nullable := false, defaultValue := some "0.00" }]
    constraints := [
      { name := some "positive", kind := .check, expression := some "total > 0" },
      { kind := .foreignKey, columns := ["Note", "group"], refTable := some "notes",
        refColumns := ["text", "group id"], onDelete := some "SET NULL" }] }]
  sequences := [{ name := "order_seq", startValue := -5, maxValue := some 100, cycle := true }]

theorem normal_columns_orders : ∀ t ∈ orders.tables, ∀ c ∈ t.columns, c.Normal .oracle := by
  have hliteral : IsLiteral Dialect.oracle.rules "';'''".toList :=
    isLiteral_iff.2 ⟨.quoted '\x27' [';', '\x27', '\x27'], rfl,
      .quoted rfl (.char (by decide) (by decide) (.doubled .nil)) (by decide), .inl rfl⟩
  have hnumber : IsLiteral Dialect.oracle.rules "0.00".toList :=
    isLiteral_iff.2 ⟨.number ['0'] (some ['0', '0']), rfl, .number (by decide) (by decide), .inr rfl⟩
  have hplain : ∀ t ∈ orders.tables, ∀ c ∈ t.columns,
      PlainName c.name ∧ PlainType c.dataType ∧ c.Parametrized := by decide
  have hvalues : ∀ t ∈ orders.tables, ∀ c ∈ t.columns,
      c.defaultValue ∈ [none, some "';'''", some "0.00"] := by decide
  have hflags : ∀ t ∈ orders.tables, ∀ c ∈ t.columns,
      (c.autoIncrement = true → c.defaultValue = none) ∧
      (c.primaryKey = true → c.nullable = false ∧ c.unique = false) := by decide
  intro t ht c hc
  obtain ⟨hname, htype, hparametrized⟩ := hplain t ht c hc
  obtain ⟨hcounting, hkey⟩ := hflags t ht c hc
  refine ⟨⟨hname, by simp⟩, htype, hparametrized, fun v hv => ?_, hcounting, hkey, by simp⟩
  have hvalue := hvalues t ht c hc
  rw [Option.mem_def.1 hv] at hvalue
  simp only [List.mem_cons, List.not_mem_nil, or_false, reduceCtorEq, Option.some.injEq,
    false_or] at hvalue
  rcases hvalue with rfl | rfl
  · exact hliteral
  · exact hnumber

theorem normal_constraints_orders :
    ∀ t ∈ orders.tables, ∀ c ∈ t.constraints, c.Normal .oracle := by
  have hcheck : Constraint.NormalWith .oracle
      { name := some "positive", kind := .check, expression := some "total > 0" }
      [word "total".toList, blank ' ', punct '>', blank ' ', ofNat 0] := by
    have hformed : (punct '>').Formed Dialect.oracle.rules :=
      .punct (by decide) (by decide) (by decide)
    have hzero := (row_ofNat 0 (row_nil Dialect.oracle.rules) led_nil).blank
    have hpositive := (hzero.cons hformed ⟨by simp, by simp, by simp⟩ (led_blank _)).blank
    refine ⟨?_, ⟨by decide, by decide, by decide, by decide⟩,
      row_word (by decide +kernel) hpositive (led_blank _), by simp⟩
    have henclosable : Enclosable [word "total".toList, blank ' ', punct '>', blank ' ', ofNat 0] :=
      ⟨by decide, by decide⟩
    exact .check (some "positive") henclosable
  have hforeign : Constraint.NormalWith .oracle
      { kind := .foreignKey, columns := ["Note", "group"], refTable := some "notes",
        refColumns := ["text", "group id"], onDelete := some "SET NULL" } [] :=
    ⟨.foreignKey none "notes" ["text", "group id"] (by simp) (by decide) (by decide),
      ⟨by decide, by decide, by decide, by decide⟩, row_nil _, fun _ => rfl⟩
  intro t ht c hc
  obtain rfl := List.mem_singleton.1 ht
  rcases List.mem_pair.1 hc with rfl | rfl
  · exact ⟨_, hcheck⟩
  · exact ⟨_, hforeign⟩

theorem normal_orders : orders.Normal .oracle := by
  have hsequences : ∀ q ∈ orders.sequences, PlainName q.name := by decide
  have hnames : ∀ t ∈ orders.tables, PlainName t.name ∧ t.columns ≠ [] ∧ t.primaryKey = none := by
    decide
  have hcolumns : ∀ t ∈ orders.tables,
      t.columns.Pairwise (fun c c' => sameName c.name c'.name = false) ∧
      (t.columns.filter (·.primaryKey)).length ≤ 1 := by decide
  refine ⟨rfl, .inl (by decide), rfl, rfl, fun t ht => ?_, hsequences, by simp⟩
  obtain ⟨hname, hne, hkeyless⟩ := hnames t ht
  obtain ⟨hdistinct, hkey⟩ := hcolumns t ht
  exact ⟨hname, hne, normal_columns_orders t ht, hdistinct, hkey, fun _ => hkeyless,
    normal_constraints_orders t ht⟩

theorem exists_generate_parse_orders : orders.Normal .oracle ∧
    ∃ ddl, generate .oracle orders = .ok ddl ∧ parse .oracle ddl = .ok orders :=
  ⟨normal_orders, exists_generate_parse .oracle orders normal_orders⟩

end DdlBridge
