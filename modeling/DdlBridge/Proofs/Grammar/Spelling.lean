import DdlBridge.Proofs.Grammar.AlikeStatement
import DdlBridge.Proofs.Statement.LetterCase

/-!
# Scripts in two spellings

Scripts that differ in letter case only are cut into statements that differ in letter case only, and
these define schemas that differ in letter case only or are rejected at the same place
(`sameOutcome_parse`). Under the rules that know dollar quotes the scripts must be without them, as
their tags are compared letter by letter.
-/

namespace DdlBridge

open Text

/-! ### Outcomes -/

/-- Two scripts define the same schema up to letter case, or both cannot be read, or both are
rejected at the same byte. -/
inductive SameOutcome : Except Error Schema → Except Error Schema → Prop
  | parsed {s s' : Schema} : s.lowered = s'.lowered → SameOutcome (.ok s) (.ok s')
  | invalidInput (text text' : String) :
    SameOutcome (.error (.invalidInput text)) (.error (.invalidInput text'))
  | malformed (offset : Nat) (text text' : String) :
    SameOutcome (.error (.malformed offset text)) (.error (.malformed offset text'))

/-! ### Tokens -/

theorem Token.Twin.of_lowered {t t' : Token} (h : t.lowered = t'.lowered)
    (hname : t.lowered.ident? = t.ident?.map String.toLower)
    (hname' : t'.lowered.ident? = t'.ident?.map String.toLower) : t.Twin t' where
  kind := (Token.mk.inj h).1
  text := (Token.mk.inj h).2.1
  offset := (Token.mk.inj h).2.2
  ident := by rw [← hname, h, hname']

theorem twins_of_lowered {ts ts' : List Token}
    (h : ts.map Token.lowered = ts'.map Token.lowered)
    (hnames : ∀ t ∈ ts, t.lowered.ident? = t.ident?.map String.toLower)
    (hnames' : ∀ t ∈ ts', t.lowered.ident? = t.ident?.map String.toLower) : Twins ts ts' := by
  induction ts generalizing ts' with
  | nil =>
    cases ts' with
    | nil => exact .nil
    | cons t' ts' => contradiction
  | cons t ts ih =>
    cases ts' with
    | nil => contradiction
    | cons t' ts' =>
      obtain ⟨ht, hts⟩ := List.cons.inj h
      obtain ⟨hname, hnames⟩ := List.forall_mem_cons.1 hnames
      obtain ⟨hname', hnames'⟩ := List.forall_mem_cons.1 hnames'
      exact .cons (.of_lowered ht hname hname') (ih hts hnames hnames')

theorem twins_tokenize {d : Dialect} {cs cs' : List Char} (h : lower cs = lower cs')
    (hdollar : d.rules.dollarQuotes = true → '$' ∉ cs) : Twins (tokenize d cs) (tokenize d cs') := by
  have hdollar' : d.rules.dollarQuotes = true → '$' ∉ cs' := fun hrules hmem =>
    hdollar hrules ((mem_iff_of_lower_eq rfl h).2 hmem)
  refine twins_of_lowered ?_ (fun _ => Lexer.ident?_lowered) fun _ => Lexer.ident?_lowered
  rw [tokenize, tokenize, ← Lexer.tokensFrom_lower 0 hdollar, h, Lexer.tokensFrom_lower 0 hdollar']

/-! ### Statements -/

namespace Grammar

theorem sameOutcome_ofStatement {d : Dialect} {s s' : Statement} (h : s.lowered = s'.lowered)
    (hdollar : d.rules.dollarQuotes = true → '$' ∉ s.text) :
    SameOutcome (ofStatement d s) (ofStatement d s') := by
  obtain ⟨hoffset, htext⟩ := Statement.mk.inj h
  have hwidth : width s.text = width s'.text := by
    rw [← width_lower, htext, width_lower]
  have hrun := alike_statement ⟨s.text, d⟩ ⟨s'.text, d⟩ _ _ ⟨htext, rfl⟩ (twins_tokenize htext hdollar)
  rw [ofStatement_eq, ofStatement_eq]
  generalize statement ⟨s.text, d⟩ (tokenize d s.text) = r,
    statement ⟨s'.text, d⟩ (tokenize d s'.text) = r' at hrun
  cases hrun with
  | ok hschema _ => exact .parsed hschema
  | @error e e' he =>
    dsimp only
    rw [Complaint.error, Complaint.error, he, hoffset, hwidth]
    exact .malformed _ _ _

theorem sameOutcome_define {d : Dialect} {statements statements' : List Statement}
    (h : statements.map Statement.lowered = statements'.map Statement.lowered)
    (hdollar : d.rules.dollarQuotes = true → ∀ s ∈ statements, '$' ∉ s.text) {schema schema' : Schema}
    (hschema : schema.lowered = schema'.lowered) :
    SameOutcome (define d schema statements) (define d schema' statements') := by
  -- both runs fail at the first statement that fails, and until then their schemas stay alike
  induction statements generalizing statements' schema schema' with
  | nil =>
    cases statements' with
    | nil => exact .parsed hschema
    | cons s' statements' => contradiction
  | cons s statements ih =>
    cases statements' with
    | nil => contradiction
    | cons s' statements' =>
      obtain ⟨hs, hstatements⟩ := List.cons.inj h
      have hfirst := sameOutcome_ofStatement hs fun hrules => hdollar hrules s (by simp)
      have hrest : d.rules.dollarQuotes = true → ∀ s ∈ statements, '$' ∉ s.text := fun hrules s hs =>
        hdollar hrules s (List.mem_cons_of_mem _ hs)
      generalize hd : ofStatement d s = r, hd' : ofStatement d s' = r' at hfirst
      cases hfirst with
      | parsed hfragment =>
        rw [define_cons_of_ok hd, define_cons_of_ok hd']
        refine ih hstatements hrest ?_
        rw [Schema.lowered_append, Schema.lowered_append, hschema, hfragment]
      | invalidInput text text' =>
        rw [define_cons_of_error hd, define_cons_of_error hd']
        exact .invalidInput text text'
      | malformed offset text text' =>
        rw [define_cons_of_error hd, define_cons_of_error hd']
        exact .malformed offset text text'

end Grammar

/-! ### Scripts -/

theorem dollarQuotes_iff {d : Dialect} : d.rules.dollarQuotes = true ↔ d = .postgres := by
  cases d <;> decide

/-- Neither script can be split, or both are split into statements that differ in letter case. -/
theorem split_of_lower_eq {d : Dialect} {cs cs' : List Char} (h : lower cs = lower cs')
    (hdollar : d.rules.dollarQuotes = true → '$' ∉ cs) :
    (∃ text, Statement.split d.rules cs = .error (.invalidInput text) ∧
      Statement.split d.rules cs' = .error (.invalidInput text)) ∨
    ∃ statements statements', Statement.split d.rules cs = .ok statements ∧
      Statement.split d.rules cs' = .ok statements' ∧
      statements.map Statement.lowered = statements'.map Statement.lowered := by
  have hdollar' : d.rules.dollarQuotes = true → '$' ∉ cs' := fun hrules hmem =>
    hdollar hrules ((mem_iff_of_lower_eq rfl h).2 hmem)
  have hsplit : (Statement.split d.rules cs).map (List.map Statement.lowered) =
      (Statement.split d.rules cs').map (List.map Statement.lowered) := by
    rw [← Statement.split_lower hdollar, h, Statement.split_lower hdollar']
  cases hs : Statement.split d.rules cs with
  | error e =>
    obtain ⟨text, rfl⟩ := Statement.exists_of_split_eq_error hs
    cases hs' : Statement.split d.rules cs' with
    | error e' =>
      rw [hs, hs'] at hsplit
      exact .inl ⟨text, rfl, congrArg Except.error (Except.error.inj hsplit).symm⟩
    | ok statements' =>
      rw [hs, hs'] at hsplit
      contradiction
  | ok statements =>
    cases hs' : Statement.split d.rules cs' with
    | error e' =>
      rw [hs, hs'] at hsplit
      contradiction
    | ok statements' =>
      rw [hs, hs'] at hsplit
      exact .inr ⟨statements, statements', rfl, rfl, Except.ok.inj hsplit⟩

theorem sameOutcome_parseScript {d : Dialect} {cs cs' : List Char} (h : lower cs = lower cs')
    (hdollar : d.rules.dollarQuotes = true → '$' ∉ cs) :
    SameOutcome (parseScript d cs) (parseScript d cs') := by
  have hempty : (trim cs).isEmpty = (trim cs').isEmpty := by
    rw [← isEmpty_lower, ← trim_lower, h, trim_lower, isEmpty_lower]
  cases hblank : (trim cs).isEmpty with
  | true =>
    have hblank' : (trim cs').isEmpty = true := hempty ▸ hblank
    unfold parseScript
    rw [hblank, hblank']
    exact .invalidInput _ _
  | false =>
    have hblank' : (trim cs').isEmpty = false := hempty ▸ hblank
    obtain ⟨text, hs, hs'⟩ | ⟨statements, statements', hs, hs', hsame⟩ := split_of_lower_eq h hdollar
    · rw [parseScript_of_error hblank hs, parseScript_of_error hblank' hs']
      exact .invalidInput text text
    · rw [parseScript_of_ok hblank hs, parseScript_of_ok hblank' hs']
      refine Grammar.sameOutcome_define hsame (fun hrules s hmem hc => ?_) rfl
      exact hdollar hrules (Statement.mem_of_mem_split hs hmem hc)

/-- Parsing does not see the case of ASCII letters. -/
theorem sameOutcome_parse (d : Dialect) {sql sql' : String}
    (h : lower sql.toList = lower sql'.toList) (hdollar : d = .postgres → '$' ∉ sql.toList) :
    SameOutcome (parse d sql) (parse d sql') :=
  sameOutcome_parseScript h fun hrules => hdollar (dollarQuotes_iff.1 hrules)

theorem sameOutcome_parse_orders :
    SameOutcome
      (parse .postgres "create table \x22Orders\x22 (Id Serial primary key, note VarChar(Max));")
      (parse .postgres "CREATE TABLE \x22ORDERS\x22 (ID SERIAL PRIMARY KEY, NOTE VARCHAR(MAX));") ∧
    parse .postgres "create table \x22Orders\x22 (Id Serial primary key, note VarChar(Max));" ≠
      parse .postgres "CREATE TABLE \x22ORDERS\x22 (ID SERIAL PRIMARY KEY, NOTE VARCHAR(MAX));" :=
  ⟨sameOutcome_parse .postgres (by decide) fun _ => by decide, by decide +kernel⟩

/-- Tags are compared letter by letter: the second literal is never closed. -/
example : (parse .postgres "SELECT $a$ $a$;").isOk = true ∧
    (parse .postgres "SELECT $A$ $a$;").isOk = false := by
  decide +kernel

end DdlBridge
