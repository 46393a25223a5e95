import DdlBridge.Proofs.Statement.EmptyLine
import DdlBridge.Proofs.Statement.Front

/-!
# What the parts of a script add

A script adds a schema if it is split and its statements define the schema (`Adds`). Cut where a
statement ends, it adds what its parts add (`adds_append_iff`).
-/

namespace DdlBridge

open Statement Scanner Text Grammar

variable {d : Dialect} {cs done t : List Char} {schema fragment : Schema} {s : Statement}

/-- The statements of the script define the schema. -/
def Adds (d : Dialect) (script : List Char) (schema : Schema) : Prop :=
  ∃ statements, split d.rules script = .ok statements ∧ define d {} statements = .ok schema

theorem adds_iff_of_ok {statements : List Statement} (h : split d.rules cs = .ok statements) :
    Adds d cs schema ↔ define d {} statements = .ok schema := by
  simp [Adds, h]

theorem not_adds_of_error {e : Error} (h : split d.rules cs = .error e) : ¬ Adds d cs schema := by
  simp [Adds, h]

/-! ### Statements -/

theorem define_singleton (d : Dialect) (base : Schema) (s : Statement) :
    define d base [s] = (ofStatement d s).map base.append := by
  cases h : ofStatement d s with
  | ok fragment => exact define_cons_of_ok h
  | error e => exact define_cons_of_error h

/-- Statements add to a schema and leave what is in it. -/
theorem exists_append_of_define {base : Schema} {statements : List Statement}
    (h : define d base statements = .ok schema) : ∃ more, schema = base.append more := by
  induction statements generalizing base with
  | nil => exact ⟨{}, by rw [Schema.append_empty]; exact (Except.ok.inj h).symm⟩
  | cons s statements ih =>
    cases hs : ofStatement d s with
    | error e =>
      rw [define_cons_of_error hs] at h
      exact absurd h (by simp)
    | ok fragment =>
      rw [define_cons_of_ok hs] at h
      obtain ⟨more, rfl⟩ := ih h
      exact ⟨fragment.append more, Schema.append_assoc base fragment more⟩

theorem Adds.empty_append (h : Adds d cs schema) : ({} : Schema).append schema = schema := by
  obtain ⟨statements, -, hdefine⟩ := h
  obtain ⟨more, rfl⟩ := exists_append_of_define hdefine
  rw [← Schema.append_assoc]
  rfl

/-- The first statement adds its fragment, and the others add to that. -/
theorem exists_fragment_of_define {more : List Statement} (h : define d {} (s :: more) = .ok schema) :
    ∃ fragment, ofStatement d s = .ok fragment ∧ fragment.views <+: schema.views := by
  cases hs : ofStatement d s with
  | error e =>
    rw [define_cons_of_error hs] at h
    exact absurd h (by simp)
  | ok fragment =>
    rw [define_cons_of_ok hs] at h
    obtain ⟨later, rfl⟩ := exists_append_of_define h
    exact ⟨fragment, rfl, List.prefix_append _ _⟩

/-! ### Parts -/

theorem define_moved_eq_ok_iff (base : Schema) (n : Nat) (statements : List Statement) :
    define d base (statements.map (moved n)) = .ok schema ↔
      ∃ found, define d {} statements = .ok found ∧ schema = base.append found := by
  have hmoved := define_moved (d := d) {} base n statements
  rw [Schema.append_empty] at hmoved
  rw [hmoved]
  cases define d {} statements with
  | error e => simp [Except.map, Except.mapError]
  | ok found => simp [Except.map, Except.mapError, eq_comm]

theorem adds_newline_iff : Adds d ('\n' :: cs) schema ↔ Adds d cs schema := by
  cases hsplit : split d.rules cs with
  | error e =>
    have hnewline : split d.rules ('\n' :: cs) = .error e := by rw [split_newline, hsplit]; rfl
    exact iff_of_false (not_adds_of_error hnewline) (not_adds_of_error hsplit)
  | ok statements =>
    have hnewline : split d.rules ('\n' :: cs) = .ok (statements.map (moved 1)) := by
      rw [split_newline, hsplit]
      rfl
    rw [adds_iff_of_ok hnewline, define_moved_eq_ok_iff]
    constructor
    · rintro ⟨found, hfound, rfl⟩
      have hadds : Adds d cs found := ⟨statements, hsplit, hfound⟩
      rwa [hadds.empty_append]
    · intro hadds
      exact ⟨schema, (adds_iff_of_ok hsplit).1 hadds, hadds.empty_append.symm⟩

theorem adds_append_iff (hbegin : Begins d.rules done) (hagrees : Agrees d.rules done t) :
    Adds d (done ++ t) schema ↔
      ∃ s₁ s₂, Adds d done s₁ ∧ Adds d t s₂ ∧ schema = s₁.append s₂ := by
  have hall := split_append (lineFree_or d) hbegin hagrees
  have hdone := split_of_begins hbegin
  cases ht : split d.rules t with
  | error e =>
    rw [ht] at hall
    refine iff_of_false (not_adds_of_error hall) ?_
    rintro ⟨s₁, s₂, -, hrest, -⟩
    exact not_adds_of_error ht hrest
  | ok new =>
    rw [ht] at hall
    rw [adds_iff_of_ok hall, define_append]
    constructor
    · intro hdefine
      cases hfirst : define d {} (splitter d.rules done).found.reverse with
      | error e =>
        rw [hfirst] at hdefine
        exact absurd hdefine (by simp [bind, Except.bind])
      | ok s₁ =>
        rw [hfirst] at hdefine
        obtain ⟨s₂, hrest, rfl⟩ := (define_moved_eq_ok_iff s₁ (width done) new).1 hdefine
        exact ⟨s₁, s₂, ⟨_, hdone, hfirst⟩, ⟨new, ht, hrest⟩, rfl⟩
    · rintro ⟨s₁, s₂, hfirst, hrest, rfl⟩
      rw [(adds_iff_of_ok hdone).1 hfirst]
      exact (define_moved_eq_ok_iff s₁ (width done) new).2 ⟨s₂, (adds_iff_of_ok ht).1 hrest, rfl⟩

theorem adds_iff_of_empty (hsplit : split d.rules cs = .ok []) : Adds d cs schema ↔ schema = {} := by
  rw [adds_iff_of_ok hsplit]
  exact ⟨fun h => (Except.ok.inj h).symm, fun h => congrArg Except.ok h.symm⟩

/-- A line end on either side of the cut leaves the line before alone. -/
theorem joined_of_newline {rules : LexicalRules}
    (h : done.getLast? = some '\n' ∨ t.head? = some '\n') : Joined rules done t := by
  rintro u v w rfl rfl hv
  rcases h with h | h
  · rw [List.getLast?_concat] at h
    exact absurd h (by decide)
  · cases v with
    | nil => exact not_cutsAt_blanks (by decide)
    | cons c v =>
      obtain rfl := Option.some.inj h
      exact absurd List.mem_cons_self hv

/-- A `GO` line in front of a script adds nothing. -/
theorem adds_goLine_iff : Adds .sqlServer ('G' :: 'O' :: '\n' :: t) schema ↔
    Adds .sqlServer t schema := by
  have hcut : cutsAt Dialect.sqlServer.rules ['G', 'O'] '\n' = true := by decide
  have hbegin : Begins Dialect.sqlServer.rules ['G', 'O', '\n'] := .cut hcut
  have hsplit : split Dialect.sqlServer.rules ['G', 'O', '\n'] = .ok [] := by decide
  have hparts : 'G' :: 'O' :: '\n' :: t = ['G', 'O', '\n'] ++ t := rfl
  rw [hparts, adds_append_iff hbegin (.inl (joined_of_newline (.inl rfl)))]
  constructor
  · rintro ⟨s₁, s₂, hfirst, hrest, rfl⟩
    obtain rfl := (adds_iff_of_empty hsplit).1 hfirst
    rwa [hrest.empty_append]
  · intro h
    exact ⟨{}, schema, (adds_iff_of_empty hsplit).2 rfl, h, h.empty_append.symm⟩

/-- A script of one statement. -/
theorem adds_singleton_iff (hsplit : split d.rules cs = .ok [s]) :
    Adds d cs schema ↔ ∃ fragment, ofStatement d s = .ok fragment ∧
      schema = ({} : Schema).append fragment := by
  rw [adds_iff_of_ok hsplit, define_singleton]
  cases ofStatement d s with
  | error e => simp [Except.map]
  | ok fragment => simp [Except.map, eq_comm]

end DdlBridge
