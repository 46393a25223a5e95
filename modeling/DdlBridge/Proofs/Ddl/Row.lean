import DdlBridge.Proofs.Grammar.Definition
import DdlBridge.Proofs.Statement.Restart

/-!
# Rows of atoms

The atoms on one line of DDL stand apart, and none of them ends a statement or opens a block. So it is
for each part of a definition: its names, types, clauses and constraints.
-/

namespace DdlBridge

open Text Atom Ddl

namespace Atom

/-- The atom neither ends a statement nor opens a block. Where lines may end statements it starts no
line either. -/
structure Calm (rules : LexicalRules) (a : Atom) : Prop where
  semicolon : a ≠ punct ';'
  opening : ∀ cs, a = word cs → upper cs ≠ "CASE".toList
  newline : a = blank '\n' → Scanner.LineFree rules

/-- Atoms of one line of DDL. -/
structure Row (rules : LexicalRules) (as : List Atom) : Prop where
  apart : Apart rules as
  calm : ∀ a ∈ as, a.Calm rules

/-- The atoms may stand behind any other. -/
def Led (as : List Atom) : Prop := ∀ c ∈ (textOf as).head?, c ∈ delimiters

variable {rules : LexicalRules} {a : Atom} {as bs : List Atom}

theorem led_nil : Led [] := fun _ h => absurd h (by simp [textOf])

theorem led_blank (as : List Atom) : Led (blank ' ' :: as) := by
  intro c hc
  obtain rfl := Option.some.inj hc
  decide

theorem led_newline (as : List Atom) : Led (blank '\n' :: as) := by
  intro c hc
  obtain rfl := Option.some.inj hc
  decide

theorem led_mark {c : Char} (hc : c ∈ marks) (as : List Atom) : Led (punct c :: as) := by
  intro e he
  obtain rfl := Option.some.inj he
  have hall : ∀ c ∈ marks, c ∈ delimiters := by decide
  exact hall c hc

theorem Led.append (has : Led as) (hbs : Led bs) : Led (as ++ bs) := by
  intro c hc
  rw [textOf_append, List.head?_append] at hc
  cases hhead : (textOf as).head? with
  | none =>
    rw [hhead] at hc
    exact hbs c hc
  | some e =>
    rw [hhead] at hc
    exact has c (hhead.trans hc)

theorem led_flatMap {ι : Type} {f : ι → List Atom} {xs : List ι} (h : ∀ x ∈ xs, Led (f x)) :
    Led (xs.flatMap f) := by
  induction xs with
  | nil => exact led_nil
  | cons x xs ih =>
    rw [List.forall_mem_cons] at h
    rw [List.flatMap_cons]
    exact h.1.append (ih h.2)

theorem apart_flatMap {ι : Type} {f : ι → List Atom} {xs : List ι}
    (h : ∀ x ∈ xs, Apart rules (f x) ∧ Led (f x)) : Apart rules (xs.flatMap f) := by
  induction xs with
  | nil => exact .nil
  | cons x xs ih =>
    rw [List.forall_mem_cons] at h
    rw [List.flatMap_cons]
    exact h.1.1.append (ih h.2) (led_flatMap fun x hx => (h.2 x hx).2)

theorem row_nil (rules : LexicalRules) : Row rules [] := ⟨.nil, fun _ h => absurd h (by simp)⟩

namespace Row

theorem append (has : Row rules as) (hbs : Row rules bs) (h : Led bs) : Row rules (as ++ bs) :=
  ⟨has.apart.append hbs.apart h, fun a ha =>
    (List.mem_append.1 ha).elim (has.calm a) (hbs.calm a)⟩

theorem cons (ha : a.Formed rules) (hcalm : a.Calm rules) (h : Row rules as) (hled : Led as) :
    Row rules (a :: as) :=
  ⟨.cons ha (fun c hc => ha.endsAt (hled c hc)) h.apart, List.forall_mem_cons.2 ⟨hcalm, h.calm⟩⟩

theorem single (ha : a.Formed rules) (hcalm : a.Calm rules) : Row rules [a] :=
  (row_nil rules).cons ha hcalm led_nil

theorem blank (h : Row rules as) : Row rules (blank ' ' :: as) :=
  ⟨h.apart.blank (by decide), List.forall_mem_cons.2
    ⟨⟨by simp, by simp, by simp⟩, h.calm⟩⟩

theorem mark {c : Char} (hc : c ∈ marks) (hsemicolon : c ≠ ';') (h : Row rules as) :
    Row rules (punct c :: as) :=
  ⟨h.apart.mark hc, List.forall_mem_cons.2
    ⟨⟨fun heq => hsemicolon (Atom.punct.inj heq), by simp, by simp⟩, h.calm⟩⟩

theorem flatMap {ι : Type} {f : ι → List Atom} {xs : List ι}
    (h : ∀ x ∈ xs, Row rules (f x) ∧ Led (f x)) : Row rules (xs.flatMap f) := by
  refine ⟨apart_flatMap fun x hx => ⟨(h x hx).1.apart, (h x hx).2⟩, fun a ha => ?_⟩
  obtain ⟨x, hx, ha⟩ := List.mem_flatMap.1 ha
  exact (h x hx).1.calm a ha

end Row

/-! ### Words, names and numbers -/

/-- The characters are those of a word that opens no block. -/
def isCalmWord : List Char → Bool
  | [] => false
  | c :: cs => Lexer.startsWord c && cs.all Lexer.continuesWord && upper (c :: cs) != "CASE".toList

theorem calm_word {cs : List Char} (h : upper cs ≠ "CASE".toList) : (word cs).Calm rules :=
  ⟨by simp, fun _ heq => Atom.word.inj heq ▸ h, by simp⟩

theorem calm_quoted (opening : Char) (body : List Char) : (quoted opening body).Calm rules :=
  ⟨by simp, by simp, by simp⟩

theorem calm_number (whole : List Char) (fraction : Option (List Char)) :
    (number whole fraction).Calm rules := ⟨by simp, by simp, by simp⟩

theorem calm_of_kind {a : Atom} (h : a.kind? = some .string ∨ a.kind? = some .number) :
    a.Calm rules := by
  cases a with
  | quoted => exact calm_quoted _ _
  | number => exact calm_number _ _
  | blank | word | punct => exact absurd h (by simp [kind?])

theorem row_word {cs : List Char} (h : isCalmWord cs = true) (hrow : Row rules as) (hled : Led as) :
    Row rules (word cs :: as) := by
  cases cs with
  | nil => exact absurd h (by simp [isCalmWord])
  | cons c cs =>
    rw [isCalmWord, Bool.and_eq_true, Bool.and_eq_true, List.all_eq_true, bne_iff_ne] at h
    exact hrow.cons (.word h.1.1 h.1.2) (calm_word h.2) hled

theorem row_spell {ws : List String} (h : ws.all (isCalmWord ·.toList) = true) :
    Row rules (spell ws) := by
  induction ws with
  | nil => exact row_nil rules
  | cons w ws ih =>
    rw [List.all_cons, Bool.and_eq_true] at h
    cases ws with
    | nil => exact row_word h.1 (row_nil rules) led_nil
    | cons v ws => exact row_word h.1 (ih h.2).blank (led_blank _)

variable {d : Dialect} {name : String}

theorem calm_name (d : Dialect) (hname : Readable name) : (Atom.name d name).Calm d.rules := by
  unfold Atom.name
  split
  case isTrue => exact calm_quoted _ _
  case isFalse h =>
    rw [Bool.not_eq_true] at h
    obtain ⟨-, -, -, -, -, hreserved⟩ := bare_of_not_needsQuoting h (hname h)
    exact calm_word (upper_ne_of_not_isReserved hreserved (by decide) (by decide))

theorem row_name (hname : Readable name) (hrow : Row d.rules as) (hled : Led as) :
    Row d.rules (Atom.name d name :: as) := hrow.cons (formed_name d hname) (calm_name d hname) hled

theorem row_names {names : List String} (h : ∀ name ∈ names, PlainName name) :
    Row d.rules (Atom.names d names) := by
  have hnext : ∀ name, PlainName name →
      Row d.rules (nextName d name) ∧ Led (nextName d name) := fun name hname =>
    ⟨((row_name hname.readable (row_nil _) led_nil).blank).mark (by decide) (by decide),
      led_mark (by decide) _⟩
  cases names with
  | nil => exact row_nil _
  | cons name names =>
    rw [List.forall_mem_cons] at h
    exact row_name h.1.readable (Row.flatMap fun x hx => hnext x (h.2 x hx))
      (led_flatMap fun x hx => (hnext x (h.2 x hx)).2)

/-- Atoms in parentheses. -/
theorem Row.enclosed (h : Row rules as) : Row rules (punct '(' :: (as ++ [punct ')'])) :=
  (h.append ((row_nil rules).mark (by decide) (by decide)) (led_mark (by decide) _)).mark (by decide)
    (by decide)

theorem row_nameList {names : List String} (h : ∀ name ∈ names, PlainName name) :
    Row d.rules (Atom.nameList d names) := (row_names h).enclosed

theorem row_ofNat (n : Nat) (hrow : Row rules as) (hled : Led as) : Row rules (ofNat n :: as) :=
  hrow.cons (formed_ofNat rules n) (calm_number _ _) hled

theorem row_numbers (ns : List UInt32) : Row rules (numbers ns) := by
  have hnext : ∀ n : UInt32, Row rules [punct ',', ofNat n.toNat] := fun n =>
    (row_ofNat n.toNat (row_nil rules) led_nil).mark (by decide) (by decide)
  cases ns with
  | nil => exact row_nil rules
  | cons n ns =>
    exact row_ofNat _ (Row.flatMap fun n _ => ⟨hnext n, led_mark (by decide) _⟩)
      (led_flatMap fun n _ => led_mark (by decide) _)

theorem row_parameters (ns : List UInt32) : Row rules (Atom.parameters ns) := by
  unfold Atom.parameters
  split
  case isTrue => exact row_nil rules
  case isFalse => exact (row_numbers ns).enclosed

theorem led_parameters (ns : List UInt32) : Led (Atom.parameters ns) := by
  unfold Atom.parameters
  split
  case isTrue => exact led_nil
  case isFalse => exact led_mark (by decide) _

theorem formed_minus (rules : LexicalRules) : (punct '-').Formed rules := by
  refine .punct ?_ (by decide) fun _ => by decide
  simp [Statement.Lexeme.isPunct, Statement.opensQuote, Statement.opensWord, Statement.plainBlanks]

theorem row_ofInt (i : Int) : Row rules (ofInt i) := by
  have hnumber := row_ofNat i.natAbs (row_nil rules) led_nil
  unfold ofInt
  split
  case isTrue =>
    refine ⟨.cons (formed_minus rules) (fun c hc => ?_) hnumber.apart,
      List.forall_mem_cons.2 ⟨⟨by simp, by simp, by simp⟩, hnumber.calm⟩⟩
    have hmem : c ∈ Nat.toDigits 10 i.natAbs := by
      rw [textOf_cons, text_ofNat_eq, textOf, List.flatMap_nil, List.append_nil] at hc
      exact List.mem_of_head? hc
    have hdigit := (digits_spec _ hmem).1
    have hdash : c ≠ '-' := by
      rintro rfl
      exact absurd hdigit (by decide)
    simp [endsAt, hdash]
  case isFalse => exact hnumber

end Atom

/-! ### Columns -/

variable {d : Dialect}

theorem calm_typeWord {rules : LexicalRules} {w : String} (h : PlainType w) :
    (word w.toList).Calm rules := by
  refine calm_word fun heq => ?_
  rw [upper_typeWord h.word, String.toList_inj] at heq
  have hnot := h.not_mem
  rw [heq] at hnot
  exact hnot List.mem_cons_self

/-- What a clause adds to a line. -/
def ColumnClause.Literal (rules : LexicalRules) : ColumnClause → Prop
  | default value => value.Formed rules ∧ value.Calm rules
  | _ => True

theorem ColumnClause.row_atoms {rules : LexicalRules} {k : ColumnClause} (hk : k.Literal rules) :
    Row rules k.atoms := by
  cases k with
  | default value =>
    exact row_word (by decide +kernel) (Row.single hk.1 hk.2).blank (led_blank _)
  | identity => exact row_word (by decide +kernel) (row_parameters [1, 1]) (led_parameters [1, 1])
  | _ => exact row_spell (by decide +kernel)

theorem row_column {c : Column} {ks : List ColumnClause} (hname : Readable c.name)
    (htype : PlainType c.dataType) (hks : ∀ k ∈ ks, k.Literal d.rules) :
    Row d.rules (c.atoms d ks) := by
  have hclauses : Row d.rules (Atom.clauses ks) :=
    Row.flatMap fun k hk => ⟨(k.row_atoms (hks k hk)).blank, led_blank _⟩
  have hled : Led (Atom.clauses ks) := led_flatMap fun k _ => led_blank _
  have htypeRow : Row d.rules c.typeAtoms :=
    (row_parameters _).cons (formed_typeWord _ htype.word) (calm_typeWord htype) (led_parameters _)
  exact row_name hname (htypeRow.append hclauses hled).blank (led_blank _)

/-! ### Constraints -/

theorem row_action {rules : LexicalRules} {a : String} (ha : a ∈ referentialActions) :
    Row rules (Atom.action a) := by
  have hall : ∀ a ∈ referentialActions,
      ((Text.words a.toList).map String.ofList).all (isCalmWord ·.toList) = true := by decide +kernel
  exact row_spell (hall a ha)

theorem row_refClauses {rules : LexicalRules} {ks : List RefClause}
    (h : ∀ k ∈ ks, k.action ∈ referentialActions) : Row rules (Atom.refClauses ks) := by
  refine Row.flatMap fun k hk => ⟨Row.blank ?_, led_blank _⟩
  have haction : Row rules (blank ' ' :: Atom.action k.action) := (row_action (h k hk)).blank
  cases k with
  | onDelete => exact (row_spell (by decide +kernel)).append haction (led_blank _)
  | onUpdate => exact (row_spell (by decide +kernel)).append haction (led_blank _)

theorem led_refClauses (ks : List RefClause) : Led (Atom.refClauses ks) :=
  led_flatMap fun _ _ => led_blank _

theorem row_refColumns {names : List String} (h : ∀ name ∈ names, PlainName name) :
    Row d.rules (Atom.refColumns d names) := by
  unfold Atom.refColumns
  split
  case isTrue => exact row_nil _
  case isFalse => exact (row_nameList h).blank

theorem led_refColumns (d : Dialect) (names : List String) : Led (Atom.refColumns d names) := by
  unfold Atom.refColumns
  split
  case isTrue => exact led_nil
  case isFalse => exact led_blank _

/-- All the names in the constraint are plain. -/
structure Constraint.PlainNames (c : Constraint) : Prop where
  name : ∀ name ∈ c.name, PlainName name
  columns : ∀ name ∈ c.columns, PlainName name
  refTable : ∀ name ∈ c.refTable, PlainName name
  refColumns : ∀ name ∈ c.refColumns, PlainName name

theorem row_constraint {c : Constraint} {expression : List Atom} (hc : PlainConstraint c expression)
    (hnames : c.PlainNames) (hexpression : Row d.rules expression) :
    Row d.rules (c.atoms d expression) := by
  have hcolumns : Row d.rules (blank ' ' :: Atom.nameList d c.columns) :=
    (row_nameList hnames.columns).blank
  have hbody : Row d.rules (c.bodyAtoms d expression) := by
    cases hc with
    | primaryKey => exact (row_spell (by decide +kernel)).append hcolumns (led_blank _)
    | unique => exact row_word (by decide +kernel) hcolumns (led_blank _)
    | check => exact row_word (by decide +kernel) hexpression.enclosed.blank (led_blank _)
    | @foreignKey name columns refTable refColumns onDelete onUpdate _ hdelete hupdate =>
      let c : Constraint :=
        { name, kind := .foreignKey, columns, refTable := some refTable, refColumns, onDelete, onUpdate }
      have hclauses : Row d.rules (Atom.refClauses c.refClauses) :=
        row_refClauses (Constraint.action_mem_of_mem_refClauses hdelete hupdate)
      have hbehind := (row_refColumns hnames.refColumns).append hclauses (led_refClauses _)
      have htable := row_name (hnames.refTable refTable rfl).readable hbehind
        ((led_refColumns d refColumns).append (led_refClauses _))
      have hword : isCalmWord "REFERENCES".toList = true := by decide +kernel
      have hreferences := row_word hword htable.blank (led_blank _)
      exact (row_spell (by decide +kernel)).append
        (hcolumns.append hreferences.blank (led_blank _)) (led_blank _)
  unfold Constraint.atoms Constraint.nameAtoms
  cases hname : c.name with
  | none => exact hbody
  | some name =>
    exact row_word (by decide +kernel)
      (row_name (hnames.name name hname).readable hbody.blank (led_blank _)).blank (led_blank _)

/-! ### Sequences -/

theorem SequenceClause.row_atoms (rules : LexicalRules) (k : SequenceClause) : Row rules k.atoms := by
  cases k with
  | cycle => exact row_spell (by decide +kernel)
  | startWith v | incrementBy v | minValue v | maxValue v | cache v =>
    exact (row_spell (by decide +kernel)).append (row_ofInt v.toInt).blank (led_blank _)

/-- The first words of a definition. -/
theorem row_create {rules : LexicalRules} {o : String} (ho : o ∈ ["TABLE", "SEQUENCE"])
    {as : List Atom} (h : Row rules as) :
    Row rules (Atom.create (word o.toList :: blank ' ' :: as)) := by
  have hall : ∀ o ∈ ["TABLE", "SEQUENCE"], isCalmWord o.toList = true := by decide +kernel
  exact row_word (by decide +kernel) (row_word (hall o ho) h.blank (led_blank _)).blank (led_blank _)

theorem row_sequence {s : Sequence} (hname : Readable s.name) :
    Row d.rules (Atom.name d s.name :: Atom.sequenceClauses s.clauses) :=
  row_name hname (Row.flatMap fun k _ => ⟨(k.row_atoms d.rules).blank, led_blank _⟩)
    (led_flatMap fun _ _ => led_blank _)

end DdlBridge
