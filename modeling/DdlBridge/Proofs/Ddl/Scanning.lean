import DdlBridge.Proofs.Ddl.Row
import DdlBridge.Proofs.Statement.Defining

/-!
# Definitions in scripts

A scanner reads through the atoms of a table or a sequence and ends the statement at its `;`
(`scan_table`, `scan_sequence`).
-/

namespace DdlBridge

open Text Atom Ddl Statement Scanner

variable {d : Dialect} {rules : LexicalRules} {s : Scanner} {k : Nat}

/-! ### Rows -/

theorem weightOf_append (ls ls' : List Lexeme) : weightOf (ls ++ ls') = weightOf ls + weightOf ls' := by
  rw [weightOf, List.map_append, List.sum_append]
  rfl

theorem weightOf_lexemesOf_cons (a : Atom) (as : List Atom) :
    weightOf (lexemesOf (a :: as)) = weightOf a.lexemes + weightOf (lexemesOf as) := by
  rw [lexemesOf_cons, weightOf_append]

theorem weightOf_lexemesOf_append (as bs : List Atom) :
    weightOf (lexemesOf (as ++ bs)) = weightOf (lexemesOf as) + weightOf (lexemesOf bs) := by
  rw [lexemesOf_append, weightOf_append]

theorem upper_digits_ne {cs : List Char} (h : ∀ c ∈ cs, c.isDigit = true) :
    upper cs ≠ "CASE".toList := by
  intro heq
  cases cs with
  | nil => exact absurd heq (by decide)
  | cons c cs =>
    have hdigit := h c List.mem_cons_self
    have hupper : c.toUpper = 'C' := (List.cons.inj heq).1
    rw [(typeChar_spec (by simp [isTypeChar, hdigit])).1] at hupper
    rw [hupper] at hdigit
    exact absurd hdigit (by decide)

theorem calm_lexemes {a : Atom} (ha : a.Formed rules) (hcalm : a.Calm rules) :
    ∀ l ∈ a.lexemes, l.Calm rules := by
  intro l hl
  cases ha with
  | @blank c =>
    obtain rfl := List.mem_singleton.1 hl
    exact fun hc => hcalm.newline (by rw [hc])
  | word =>
    obtain rfl := List.mem_singleton.1 hl
    exact hcalm.opening _ rfl
  | @number c whole fraction hwhole hfraction =>
    have hfirst : (Lexeme.word (c :: whole)).Calm rules := upper_digits_ne hwhole
    have hpoint : (Lexeme.punct '.').Calm rules := by
      show '.' ≠ ';'
      decide
    cases fraction with
    | none =>
      obtain rfl := List.mem_singleton.1 hl
      exact hfirst
    | some ds =>
      cases ds with
      | nil =>
        simp only [lexemes, List.mem_cons, List.not_mem_nil, or_false] at hl
        rcases hl with rfl | rfl
        · exact hfirst
        · exact hpoint
      | cons e ds =>
        simp only [lexemes, List.mem_cons, List.not_mem_nil, or_false] at hl
        rcases hl with rfl | rfl | rfl
        · exact hfirst
        · exact hpoint
        · exact upper_digits_ne (hfraction _ rfl)
  | @punct c =>
    obtain rfl := List.mem_singleton.1 hl
    exact fun hc => hcalm.semicolon (by rw [hc])
  | quoted =>
    obtain rfl := List.mem_singleton.1 hl
    trivial

theorem Atom.Row.calm_lexemesOf {as : List Atom} (h : Row rules as) :
    ∀ l ∈ lexemesOf as, l.Calm rules := by
  obtain ⟨hapart, hcalm⟩ := h
  induction hapart with
  | nil => exact fun l hl => absurd hl (by simp [lexemesOf])
  | @cons a as ha _ _ ih =>
    rw [List.forall_mem_cons] at hcalm
    intro l hl
    rw [lexemesOf_cons] at hl
    exact (List.mem_append.1 hl).elim (calm_lexemes ha hcalm.1 l) (ih hcalm.2 l)

/-- A definition goes on through a row of atoms, which fills its line. -/
theorem Statement.Defining.row {as : List Atom} (h : Defining rules k s) (hrow : Row rules as) :
    Through (Defining rules (k + weightOf (lexemesOf as))) s (lexemesOf as) :=
  h.run hrow.apart.script.formed hrow.calm_lexemesOf

/-! ### Lines -/

theorem one_le_weight_name {name : String} (hname : Readable name) :
    1 ≤ weightOf (Atom.name d name).lexemes := by
  have hformed := formed_name d hname
  unfold Atom.name at hformed ⊢
  split
  case isTrue => exact (by decide : 1 ≤ 3)
  case isFalse h =>
    rw [if_neg h] at hformed
    cases hcs : name.toList with
    | nil =>
      rw [hcs] at hformed
      cases hformed
    | cons c cs => exact Nat.succ_le_succ (Nat.zero_le _)

/-- The line of a column has more on it than `GO`. -/
theorem long_column {c : Column} (hname : Readable c.name) (htype : PlainType c.dataType)
    (ks : List ColumnClause) : 3 ≤ weightOf (lexemesOf (c.atoms d ks)) := by
  have hfirst := one_le_weight_name (d := d) hname
  obtain ⟨b, e, cs, hword, -⟩ := isTypeWord_cases htype.word
  have hsecond : 2 ≤ weightOf (Atom.word c.dataType.toList).lexemes := by
    rw [hword]
    exact Nat.succ_le_succ (Nat.succ_le_succ (Nat.zero_le _))
  rw [Column.atoms, Column.typeAtoms, weightOf_lexemesOf_cons, weightOf_lexemesOf_cons,
    List.cons_append, weightOf_lexemesOf_cons]
  omega

/-- The line of a constraint has more on it than `GO`. -/
theorem long_constraint (d : Dialect) (c : Constraint) (expression : List Atom) :
    3 ≤ weightOf (lexemesOf (c.atoms d expression)) := by
  have hlong : ∀ w ∈ ["PRIMARY", "FOREIGN", "UNIQUE", "CHECK"], ∀ as : List Atom,
      3 ≤ weightOf (lexemesOf (word w.toList :: as)) := by
    intro w hw as
    have hall : ∀ w ∈ ["PRIMARY", "FOREIGN", "UNIQUE", "CHECK"],
        3 ≤ weightOf (word w.toList).lexemes := by decide
    rw [weightOf_lexemesOf_cons]
    exact Nat.le_trans (hall w hw) (Nat.le_add_right _ _)
  have hbody : 3 ≤ weightOf (lexemesOf (c.bodyAtoms d expression)) := by
    unfold Constraint.bodyAtoms
    cases c.kind with
    | primaryKey => exact hlong "PRIMARY" (by decide) _
    | foreignKey => exact hlong "FOREIGN" (by decide) _
    | unique => exact hlong "UNIQUE" (by decide) _
    | check => exact hlong "CHECK" (by decide) _
  rw [Constraint.atoms, weightOf_lexemesOf_append]
  omega

/-- An element on a line of its own that has more on it than `GO`. -/
structure Element.Lined (d : Dialect) (e : Element) : Prop where
  row : Row d.rules (e.atoms d)
  long : 3 ≤ weightOf (lexemesOf (e.atoms d))

/-- A definition with more on its line than `GO`. -/
def Filled (rules : LexicalRules) (s : Scanner) : Prop := ∃ k, 3 ≤ k ∧ Defining rules k s

theorem Filled.row {as : List Atom} (h : Filled rules s) (hrow : Row rules as) :
    Through (Filled rules) s (lexemesOf as) := by
  obtain ⟨k, hk, hdefining⟩ := h
  obtain ⟨huncut, hbehind⟩ := hdefining.row hrow
  exact ⟨huncut, _, Nat.le_trans hk (Nat.le_add_right _ _), hbehind⟩

/-- A definition goes on through the next line. -/
theorem Filled.nextLine {as : List Atom} (h : Filled rules s) (hrow : Row rules as) :
    Through (Defining rules (weightOf (lexemesOf as))) s (lexemesOf (blank '\n' :: as)) := by
  obtain ⟨k, hk, hdefining⟩ := h
  refine (hdefining.newline hk).append fun t ht => ?_
  have hbehind := ht.row hrow
  rwa [Nat.zero_add] at hbehind

theorem Filled.element {e : Element} (h : Filled d.rules s) (he : e.Lined d) :
    Through (Filled d.rules) s (lexemesOf (Atom.indent ++ e.atoms d)) := by
  have hrow : Row d.rules (List.replicate 4 (blank ' ') ++ e.atoms d) :=
    he.row.blank.blank.blank.blank
  obtain ⟨huncut, hbehind⟩ := h.nextLine hrow
  refine ⟨huncut, _, ?_, hbehind⟩
  rw [weightOf_lexemesOf_append]
  exact Nat.le_trans he.long (Nat.le_add_left _ _)

theorem Filled.nextElements {es : List Element} (h : Filled d.rules s) (hes : ∀ e ∈ es, e.Lined d) :
    Through (Filled d.rules) s (lexemesOf (es.flatMap (Element.nextAtoms d))) := by
  induction es generalizing s with
  | nil => exact ⟨rfl, h⟩
  | cons e es ih =>
    rw [List.forall_mem_cons] at hes
    have hcomma : Row d.rules [punct ','] := (row_nil _).mark (by decide) (by decide)
    have hnext : Element.nextAtoms d e = [punct ','] ++ (Atom.indent ++ e.atoms d) := rfl
    rw [List.flatMap_cons, hnext, lexemesOf_append, lexemesOf_append]
    exact ((h.row hcomma).append fun t ht => ht.element hes.1).append fun t ht => ih ht hes.2

theorem filled_create {o : String} (ho : o ∈ ["TABLE", "SEQUENCE"]) {as : List Atom}
    (h : Row d.rules as) : Through (Filled d.rules) (fresh d.rules)
      (lexemesOf (Atom.create (word o.toList :: blank ' ' :: as))) :=
  (defining_create d ho).append fun _ ht => Filled.row ⟨3, Nat.le_refl 3, ht⟩ h.blank

/-! ### Statements -/

/-- No statement ends in the atoms, and a `;` behind them ends one. -/
structure Scanned (d : Dialect) (as : List Atom) : Prop where
  apart : Apart d.rules as
  uncut : (takeAll (fresh d.rules) (lexemesOf as)).2 = false
  cut : (take (takeAll (fresh d.rules) (lexemesOf as)).1 (.punct ';')).2 = true

theorem scanned_sequence {q : Sequence} (hname : Readable q.name) :
    Scanned d (Atom.create (Atom.sequence d q)) := by
  have hrow := row_sequence (d := d) hname
  obtain ⟨huncut, k, -, hdefining⟩ := filled_create (o := "SEQUENCE") (by decide) hrow
  exact ⟨(row_create (by decide) hrow).apart, huncut, hdefining.cut⟩

theorem apart_indent {as : List Atom} (h : Apart rules as) : Apart rules (Atom.indent ++ as) :=
  ((((h.blank (by decide)).blank (by decide)).blank (by decide)).blank (by decide)).blank (by decide)

/-- The line that a table starts on. -/
def Atom.tableHead (d : Dialect) (name : String) : List Atom :=
  word "TABLE".toList :: blank ' ' :: [Atom.name d name, blank ' ', punct '(']

theorem row_tableHead {name : String} (hname : Readable name) :
    Row d.rules [Atom.name d name, blank ' ', punct '('] :=
  row_name hname ((row_nil _).mark (by decide) (by decide)).blank (led_blank _)

theorem scanned_table {name : String} (hname : Readable name) {es : List Element} (hne : es ≠ [])
    (hes : ∀ e ∈ es, e.Lined d) : Scanned d (Atom.create (Atom.table d name es)) := by
  obtain ⟨e, es, rfl⟩ := List.exists_cons_of_ne_nil hne
  rw [List.forall_mem_cons] at hes
  have hhead := row_tableHead (d := d) hname
  have hclose : Row d.rules [punct ')'] := (row_nil _).mark (by decide) (by decide)
  have hparts : Atom.create (Atom.table d name (e :: es)) =
      Atom.create (Atom.tableHead d name) ++
        (Atom.indent ++ e.atoms d ++ es.flatMap (Element.nextAtoms d) ++ [blank '\n', punct ')']) := rfl
  have hnext : ∀ e ∈ es, Apart d.rules (Element.nextAtoms d e) ∧ Led (Element.nextAtoms d e) :=
    fun e he => ⟨(apart_indent (hes.2 e he).row.apart).mark (by decide), led_mark (by decide) _⟩
  have hthrough : Through (fun s => ∃ k, Defining d.rules k s) (fresh d.rules)
      (lexemesOf (Atom.create (Atom.table d name (e :: es)))) := by
    rw [hparts, lexemesOf_append, lexemesOf_append, lexemesOf_append]
    refine (filled_create (by decide) hhead).append fun t ht => ?_
    refine ((ht.element hes.1).append fun t ht => ht.nextElements hes.2).append fun t ht => ?_
    obtain ⟨huncut, hbehind⟩ := ht.nextLine hclose
    exact ⟨huncut, _, hbehind⟩
  obtain ⟨huncut, k, hdefining⟩ := hthrough
  refine ⟨?_, huncut, hdefining.cut⟩
  rw [hparts]
  refine (row_create (by decide) hhead).apart.append ?_ (led_newline _)
  refine Apart.append ?_ (hclose.apart.blank (by decide)) (led_newline _)
  exact (apart_indent hes.1.row.apart).append (apart_flatMap hnext)
    (led_flatMap fun e he => (hnext e he).2)

end DdlBridge
