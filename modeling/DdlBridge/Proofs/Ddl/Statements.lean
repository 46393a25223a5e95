import DdlBridge.Proofs.Ddl.Scanning
import DdlBridge.Proofs.Statement.CaseExpression

/-!
# Scripts of definitions

A script of definitions is split into them, and each adds its fragment to the schema
(`parseScript_statements`).
-/

namespace DdlBridge

open Text Atom Statement Scanner Grammar

variable {d : Dialect} {as : List Atom} {fragment : Schema}

/-! ### The end of a statement -/

/-- The text of the atoms ends in no blank. -/
def Firm (as : List Atom) : Prop := ∃ front c, Atom.textOf as = front ++ [c] ∧ isBlank c = false

theorem Firm.append (as : List Atom) {bs : List Atom} (h : Firm bs) : Firm (as ++ bs) := by
  obtain ⟨front, c, htext, hc⟩ := h
  refine ⟨Atom.textOf as ++ front, c, ?_, hc⟩
  rw [Atom.textOf_append, htext, List.append_assoc]

theorem Firm.trimEnd (h : Firm as) : trimEnd (Atom.textOf as) = Atom.textOf as := by
  obtain ⟨front, c, htext, hc⟩ := h
  rw [htext, trimEnd_concat hc]

theorem firm_table (d : Dialect) (name : String) (es : List Element) :
    Firm (Atom.create (Atom.table d name es)) := by
  have hclose : Firm [blank '\n', punct ')'] := ⟨['\n'], ')', rfl, by decide⟩
  exact hclose.append (word "CREATE".toList :: blank ' ' :: word "TABLE".toList :: blank ' ' ::
    Atom.name d name :: blank ' ' :: punct '(' :: Atom.elements d es)

theorem firm_ofInt (i : Int) : Firm (ofInt i) := by
  have hnumber : Firm [ofNat i.natAbs] := by
    obtain ⟨front, c, hdigits⟩ := (List.eq_nil_or_concat (Nat.toDigits 10 i.natAbs)).resolve_left
      Nat.toDigits_ne_nil
    have hmem : c ∈ Nat.toDigits 10 i.natAbs := by simp [hdigits]
    refine ⟨front, c, ?_, (digits_spec _ hmem).2.1⟩
    rw [textOf_singleton, text_ofNat_eq, hdigits, List.concat_eq_append]
  unfold ofInt
  split
  case isTrue => exact hnumber.append [punct '-']
  case isFalse => exact hnumber

theorem SequenceClause.firm_atoms (k : SequenceClause) : Firm k.atoms := by
  cases k with
  | cycle => exact ⟨"CYCL".toList, 'E', by decide, by decide⟩
  | startWith v => exact (firm_ofInt v.toInt).append (spell ["START", "WITH"] ++ [blank ' '])
  | incrementBy v => exact (firm_ofInt v.toInt).append (spell ["INCREMENT", "BY"] ++ [blank ' '])
  | minValue v => exact (firm_ofInt v.toInt).append (spell ["MINVALUE"] ++ [blank ' '])
  | maxValue v => exact (firm_ofInt v.toInt).append (spell ["MAXVALUE"] ++ [blank ' '])
  | cache v => exact (firm_ofInt v.toInt).append (spell ["CACHE"] ++ [blank ' '])

theorem firm_sequence (d : Dialect) (q : Sequence) : Firm (Atom.create (Atom.sequence d q)) := by
  have hne : q.clauses ≠ [] := by simp [Sequence.clauses]
  obtain ⟨ks, k, hclauses⟩ := (List.eq_nil_or_concat q.clauses).resolve_left hne
  have hparts : Atom.create (Atom.sequence d q) =
      (word "CREATE".toList :: blank ' ' :: word "SEQUENCE".toList :: blank ' ' :: Atom.name d q.name ::
        Atom.sequenceClauses ks ++ [blank ' ']) ++ k.atoms := by
    rw [Atom.create, Atom.sequence, hclauses, List.concat_eq_append, Atom.sequenceClauses,
      List.flatMap_append]
    simp [Atom.sequenceClauses]
  rw [hparts]
  exact k.firm_atoms.append _

/-! ### Statements -/

/-- Behind the word `CREATE` the atoms are a statement that adds the fragment to a schema. -/
structure Defines (d : Dialect) (as : List Atom) (fragment : Schema) : Prop where
  scanned : Scanned d (Atom.create as)
  firm : Firm (Atom.create as)
  defines : ∀ s : Statement, s.text = textOf (Atom.create as) → ofStatement d s = .ok fragment

/-- The atoms as a statement of a script. -/
def statementText (as : List Atom) : List Char := textOf (Atom.create as) ++ [';']

/-- The rest of a script behind a statement. -/
def scriptTail : List (List Atom) → List Char
  | [] => ['\n']
  | as :: ass => List.replicate 2 '\n' ++ (statementText as ++ scriptTail ass)

theorem joined_scriptTail (rules : LexicalRules) (done : List Char) (ass : List (List Atom)) :
    Joined rules done (scriptTail ass) := by
  cases ass with
  | nil => exact joined_of_blanks (by decide)
  | cons as ass => exact joined_of_word (w := ['\n', '\n']) (by decide) rfl (by decide)

theorem scanned_newlines (h : Scanned d as) (n : Nat) :
    Scanned d (List.replicate n (blank '\n') ++ as) := by
  induction n with
  | zero => exact h
  | succ n ih =>
    have htake := take_fresh_newline d.rules
    refine ⟨ih.apart.blank (by decide), ?_, ?_⟩
    · show ((take (fresh d.rules) (.blank '\n')).2 ||
        (takeAll (take (fresh d.rules) (.blank '\n')).1 _).2) = false
      rw [htake]
      exact ih.uncut
    · show (take (takeAll (take (fresh d.rules) (.blank '\n')).1 _).1 (.punct ';')).2 = true
      rw [htake]
      exact ih.cut

theorem textOf_newlines (n : Nat) (as : List Atom) :
    textOf (List.replicate n (blank '\n') ++ as) = List.replicate n '\n' ++ textOf as := by
  induction n with
  | zero => rfl
  | succ n ih =>
    rw [List.replicate_succ, List.cons_append, Atom.textOf_cons, ih]
    rfl

/-- The statement before a `;`, behind line ends. -/
theorem ofPiece?_newlines (rules : LexicalRules) (n : Nat) {c : Char} {cs : List Char}
    (hc : isBlank c = false) (htrim : trimEnd (c :: cs) = c :: cs) :
    ofPiece? rules 0 (List.replicate n '\n' ++ (c :: cs) ++ [';']) =
      some ⟨width (List.replicate n '\n'), c :: cs⟩ := by
  have hblank : ∀ b ∈ List.replicate n '\n', isBlank b = true := by
    intro b hb
    rw [List.eq_of_mem_replicate hb]
    decide
  have hbody : stripTerminator rules (List.replicate n '\n' ++ (c :: cs) ++ [';']) =
      List.replicate n '\n' ++ (c :: cs) := by
    rw [stripTerminator_semicolon, trimEnd_append_of_not_blank hc, htrim]
  have hstart : trimStart (List.replicate n '\n' ++ (c :: cs)) = c :: cs := by
    rw [trimStart, List.dropWhile_append_of_pos hblank,
      List.dropWhile_cons_of_neg (by rw [hc]; simp)]
  unfold ofPiece?
  dsimp only
  rw [hbody, hstart, width_append, Nat.add_sub_cancel, Nat.zero_add]
  rfl

theorem script_newlines (h : Scanned d as) (n : Nat) : Script d.rules
      (lexemesOf (List.replicate n (blank '\n') ++ as) ++ [.punct ';']) ∧
    Statement.textOf (lexemesOf (List.replicate n (blank '\n') ++ as) ++ [.punct ';']) =
      List.replicate n '\n' ++ (textOf as ++ [';']) := by
  have hmark : Apart d.rules [punct ';'] := Apart.nil.mark (by decide)
  have happart := ((scanned_newlines h n).apart.append hmark (led_mark (by decide) _)).script
  rw [lexemesOf_append] at happart
  refine ⟨happart, ?_⟩
  rw [textOf_concat, textOf_lexemesOf, textOf_newlines, List.append_assoc]

/-- One statement and its `;`, behind line ends. -/
theorem split_statementText (h : Scanned d (Atom.create as)) (hfirm : Firm (Atom.create as)) (n : Nat) :
    split d.rules (List.replicate n '\n' ++ statementText as) =
      .ok [⟨width (List.replicate n '\n'), textOf (Atom.create as)⟩] := by
  obtain ⟨hscript, htext⟩ := script_newlines h n
  obtain ⟨cs, hcs⟩ : ∃ cs, textOf (Atom.create as) = 'C' :: cs := ⟨_, rfl⟩
  have htrim := hfirm.trimEnd
  rw [hcs] at htrim
  rw [statementText, ← htext, split_of_uncut hscript (scanned_newlines h n).uncut, htext, hcs,
    ← List.append_assoc, ofPiece?_newlines d.rules n (by decide) htrim]
  rfl

theorem split_statement (h : Defines d as fragment) (n : Nat) (ass : List (List Atom)) :
    split d.rules (List.replicate n '\n' ++ (statementText as ++ scriptTail ass)) =
      (split d.rules (scriptTail ass)).map fun new =>
        ⟨width (List.replicate n '\n'), textOf (Atom.create as)⟩ ::
          new.map (moved (width (List.replicate n '\n' ++ statementText as))) := by
  obtain ⟨hscript, -⟩ := script_newlines h.scanned n
  have hbegins : Begins d.rules (List.replicate n '\n' ++ statementText as) := by
    have hcut := (cutsAt_semicolon hscript).trans (scanned_newlines h.scanned n).cut
    rw [textOf_lexemesOf, textOf_newlines] at hcut
    rw [statementText, ← List.append_assoc]
    exact .cut hcut
  have hfound := (split_of_begins hbegins).symm.trans (split_statementText h.scanned h.firm n)
  rw [← List.append_assoc, split_append (lineFree_or d) hbegins (.inl (joined_scriptTail _ _ ass)),
    Except.ok.inj hfound]
  rfl

/-! ### Scripts -/

theorem append_foldl (base : Schema) (fragments : List Schema) :
    base.append (fragments.foldl Schema.append {}) = fragments.foldl Schema.append base := by
  have hall : ∀ first : Schema, base.append (fragments.foldl Schema.append first) =
      fragments.foldl Schema.append (base.append first) := by
    induction fragments with
    | nil => exact fun _ => rfl
    | cons f fragments ih =>
      intro first
      rw [List.foldl_cons, List.foldl_cons, ih, Schema.append_assoc]
  rw [hall, Schema.append_empty]

/-- The statements of a script of definitions add all their fragments. -/
theorem exists_statements (h : Defines d as fragment) (n : Nat) {parts : List (List Atom × Schema)}
    (hparts : ∀ p ∈ parts, Defines d p.1 p.2) : ∃ statements,
      split d.rules (List.replicate n '\n' ++ (statementText as ++ scriptTail (parts.map Prod.fst))) =
        .ok statements ∧
      define d {} statements =
        .ok ((parts.map Prod.snd).foldl Schema.append (({} : Schema).append fragment)) := by
  induction parts generalizing as fragment n with
  | nil =>
    have hend : split d.rules (scriptTail []) = .ok [] := by cases d <;> rfl
    refine ⟨[⟨width (List.replicate n '\n'), textOf (Atom.create as)⟩], ?_, ?_⟩
    · rw [List.map_nil, split_statement h, hend]
      rfl
    · rw [define_cons_of_ok (h.defines _ rfl)]
      rfl
  | cons p parts ih =>
    rw [List.forall_mem_cons] at hparts
    obtain ⟨statements, hsplit, hdefine⟩ := ih hparts.1 2 hparts.2
    have htail : split d.rules (scriptTail ((p :: parts).map Prod.fst)) = .ok statements := hsplit
    refine ⟨_, by rw [split_statement h, htail]; rfl, ?_⟩
    have hmoved := define_moved (d := d) {} (({} : Schema).append fragment)
      (width (List.replicate n '\n' ++ statementText as)) statements
    rw [Schema.append_empty, hdefine] at hmoved
    rw [define_cons_of_ok (h.defines _ rfl), hmoved]
    exact congrArg Except.ok (append_foldl _ (p.2 :: parts.map Prod.snd))

theorem trim_statementText (as : List Atom) (rest : List Char) :
    (trim (statementText as ++ rest)).isEmpty = false :=
  isEmpty_trim_eq_false.2 ⟨'C', List.mem_cons_self, by decide⟩

/-- A script of one statement that nothing follows. -/
theorem parseScript_statementText (h : Scanned d (Atom.create as)) (hfirm : Firm (Atom.create as)) :
    parseScript d (statementText as) = define d {} [⟨0, textOf (Atom.create as)⟩] := by
  have hscript := trim_statementText as []
  rw [List.append_nil] at hscript
  exact parseScript_of_ok hscript (split_statementText h hfirm 0)

theorem parseScript_statements (h : Defines d as fragment) {parts : List (List Atom × Schema)}
    (hparts : ∀ p ∈ parts, Defines d p.1 p.2) :
    parseScript d (statementText as ++ scriptTail (parts.map Prod.fst)) =
      .ok ((parts.map Prod.snd).foldl Schema.append (({} : Schema).append fragment)) := by
  obtain ⟨statements, hsplit, hdefine⟩ := exists_statements h 0 hparts
  rw [parseScript_of_ok (trim_statementText as _) hsplit, hdefine]

end DdlBridge
