import DdlBridge.Proofs.Grammar.TypeText
import DdlBridge.Proofs.Statement.Unbroken

/-!
# Declarations of one column

A table that is created with one column has the column that the type is read as
(`ofStatement_of_columnType`).
-/

namespace DdlBridge

open Text Atom DdlBridge.Parser DdlBridge.Grammar

variable {d : Dialect}

/-- What stands in front of the type of the column. -/
def Atom.declarationHead : List Atom :=
  [word "CREATE".toList, blank ' ', word "TABLE".toList, blank ' ', word "t".toList, blank ' ', punct '(',
   word "x".toList, blank ' ']

/-- What stands behind it. -/
def Atom.declarationTail (nullable : Bool) : List Atom :=
  Atom.clauses (if nullable then [] else [.notNull]) ++ [punct ')']

/-- A table `t` with the column `x` of a type, without the `;`. -/
def declarationText (type : List Char) (nullable : Bool) : List Char :=
  textOf declarationHead ++ (type ++ textOf (declarationTail nullable))

/-- The token of the column name. -/
def nameToken : Token := ⟨.word, ['x'], 16⟩

/-- What `tableDefinition` reads behind the first element. -/
def tableRest (name : String) (table : Table) : Parser (Option Table) := do
  let table ← many (fun table => do
    if ← eatPunct ',' then some <$> tableElement table else return none) table
  expectPunct ')'
  if table.columns.isEmpty then fail (.noColumns name)
  discard (many (tableOption name) ())
  return some table

theorem Atom.Apart.word {rules : LexicalRules} {w : String} {as : List Atom} (hw : isWordText w = true)
    (h : Apart rules as) (hnext : ∀ c ∈ (textOf as).head?, c ∈ delimiters) :
    Apart rules (word w.toList :: as) :=
  .cons (formed_wordText rules hw) (fun c hc => (formed_wordText rules hw).endsAt (hnext c hc)) h

theorem toList_declarationHead : "CREATE TABLE t (x ".toList = textOf declarationHead := by
  decide +kernel

theorem apart_declarationHead {rules : LexicalRules} {as : List Atom} (h : Apart rules as) :
    Apart rules (declarationHead ++ as) := by
  have hblank : ∀ as, ∀ c ∈ (textOf (blank ' ' :: as)).head?, c ∈ delimiters := by
    intro as c hc
    obtain rfl := Option.some.inj hc
    decide
  have hname := Apart.word (w := "x") (by decide) (.blank (by decide) h) (hblank _)
  have hopen := Apart.mark (c := '(') (by decide) hname
  have htable := Apart.word (w := "t") (by decide) (.blank (by decide) hopen) (hblank _)
  have hobject := Apart.word (w := "TABLE") (by decide) (.blank (by decide) htable) (hblank _)
  exact .word (w := "CREATE") (by decide) (.blank (by decide) hobject) (hblank _)

theorem tokenize_declarationText (d : Dialect) (type : List Char) (nullable : Bool) :
    tokenize d (declarationText type nullable) = place 0 declarationHead ++ Lexer.tokensFrom d.rules
      (width (textOf declarationHead)) (type ++ textOf (declarationTail nullable)) := by
  have hblank : ∀ a ∈ declarationHead.getLast?, ∀ c, a.endsAt c = true := by
    intro a ha c
    obtain rfl := Option.some.inj ha
    rfl
  have hends : ∀ a ∈ declarationHead.getLast?,
      ∀ c ∈ (type ++ textOf (declarationTail nullable)).head?, a.endsAt c = true :=
    fun a ha c _ => hblank a ha c
  have happart : Apart d.rules declarationHead := apart_declarationHead .nil
  have htokens := happart.tokensFrom_append hends 0
  rwa [Nat.zero_add] at htokens

theorem tableDefinition_of_name (src : Source) (ts : List Token) :
    tableDefinition src ((place 0 declarationHead).tail ++ ts) =
      (tableElement { name := "t" } >>= tableRest "t") src (nameToken :: ts) := by
  have htable : expectWord "TABLE" src ((place 0 declarationHead).tail ++ ts) =
      .ok ((), ⟨.word, ['t'], 13⟩ :: ⟨.punct, ['('], 15⟩ :: nameToken :: ts) := rfl
  have hexists : (discard (eatWords ["IF", "NOT", "EXISTS"]) : Parser PUnit) src
      (⟨.word, ['t'], 13⟩ :: ⟨.punct, ['('], 15⟩ :: nameToken :: ts) =
      .ok ((), ⟨.word, ['t'], 13⟩ :: ⟨.punct, ['('], 15⟩ :: nameToken :: ts) := rfl
  have hident : ident src (⟨.word, ['t'], 13⟩ :: ⟨.punct, ['('], 15⟩ :: nameToken :: ts) =
      .ok ("t", ⟨.punct, ['('], 15⟩ :: nameToken :: ts) := rfl
  have hname : objectName src (⟨.word, ['t'], 13⟩ :: ⟨.punct, ['('], 15⟩ :: nameToken :: ts) =
      .ok ("t", ⟨.punct, ['('], 15⟩ :: nameToken :: ts) := by
    rw [objectName, bind_of_ok hident]
    exact many_of_none rfl
  have hopen : eatPunct '(' src (⟨.punct, ['('], 15⟩ :: nameToken :: ts) = .ok (true, nameToken :: ts) :=
    rfl
  rw [tableDefinition, bind_of_ok htable, bind_of_ok hexists, bind_of_ok hname, bind_of_ok hopen]
  rfl

theorem tableElement_of_name (src : Source) (ts : List Token) :
    tableElement { name := "t" } src (nameToken :: ts) =
      (columnDefinition >>= fun found =>
        return { name := "t", columns := [found.1], constraints := found.2 }) src (nameToken :: ts) :=
  rfl

variable {c : Column} {type : List Char} {nullable : Bool} {ts : List Token}

theorem columnDefinition_of_columnType (h : columnType "x" ⟨declarationText type nullable, d⟩ ts =
      .ok (c, place (width (textOf declarationHead ++ type)) (declarationTail nullable))) :
    ∃ n, columnDefinition ⟨declarationText type nullable, d⟩ (nameToken :: ts) =
      .ok (({ c with nullable := c.nullable && nullable }, []), place n [punct ')']) := by
  obtain ⟨ks, hks⟩ : ∃ ks, ks = if nullable then [] else [ColumnClause.notNull] := ⟨_, rfl⟩
  have hformed : (∀ k ∈ ks, k.Formed) ∧ ∀ k ∈ ks.tail, k.Follows := by
    cases nullable <;> subst hks <;> simp [ColumnClause.Formed]
  have hcolumn : ks.foldl ColumnClause.apply c = { c with nullable := c.nullable && nullable } := by
    cases nullable <;> subst hks <;> simp [ColumnClause.apply]
  have hclose : Follows EndsElement [punct ')'] := follows_punct (fun _ => rfl) _
  have hclauses := reads_columnClauses (d := d) hformed.1 hformed.2 c hclose
    (textOf declarationHead ++ type)
  have hident : ident ⟨declarationText type nullable, d⟩ (nameToken :: ts) = .ok ("x", ts) := rfl
  rw [List.append_assoc, hcolumn, hks] at hclauses
  refine ⟨width (textOf declarationHead ++ type) +
    width (textOf (Atom.clauses (if nullable then [] else [.notNull]))), ?_⟩
  rw [columnDefinition, bind_of_ok hident, bind_of_ok h]
  exact bind_of_ok hclauses _

theorem tableRest_of_close (src : Source) (name : String) {table : Table} (h : table.columns ≠ [])
    (n : Nat) : tableRest name table src (place n [punct ')']) = .ok (some table, []) := by
  have hmany : many (fun table => do
      if ← eatPunct ',' then some <$> tableElement table else return none) table src
      (place n [punct ')']) = .ok (table, place n [punct ')']) := many_of_none rfl
  have hclose : expectPunct ')' src (place n [punct ')']) = .ok ((), []) := rfl
  have hempty : table.columns.isEmpty = false := by simpa using h
  have hoption : (discard (many (tableOption name) ()) : Parser PUnit) src [] = .ok ((), []) :=
    bind_of_ok (many_of_none rfl) _
  rw [tableRest, bind_of_ok hmany, bind_of_ok hclose, hempty]
  exact bind_of_ok hoption _

/-- A declaration adds the table whose first element is the column. -/
theorem ofStatement_declarationText (d : Dialect) (type : List Char) (nullable : Bool) (n : Nat) :
    ofStatement d ⟨n, declarationText type nullable⟩ =
      match (tableElement { name := "t" } >>= tableRest "t") ⟨declarationText type nullable, d⟩
        (nameToken :: Lexer.tokensFrom d.rules (width (textOf declarationHead))
          (type ++ textOf (declarationTail nullable))) with
      | .ok (found, _) => .ok { tables := found.toList }
      | .error e => .error (e.error n (declarationText type nullable)) := by
  have hstatement : ∀ src ts, statement src (place 0 declarationHead ++ ts) =
      (tableDefinition >>= fun found => pure { tables := found.toList }) src
        ((place 0 declarationHead).tail ++ ts) := fun _ _ => rfl
  rw [ofStatement_eq, tokenize_declarationText, hstatement, bind_eq, tableDefinition_of_name]
  cases (tableElement { name := "t" } >>= tableRest "t") ⟨declarationText type nullable, d⟩ _ with
  | ok out => rfl
  | error e => rfl

/-- The declaration of a column whose type is read adds one table with that column. -/
theorem ofStatement_of_columnType (h : columnType "x" ⟨declarationText type nullable, d⟩
      (Lexer.tokensFrom d.rules (width (textOf declarationHead))
        (type ++ textOf (declarationTail nullable))) =
          .ok (c, place (width (textOf declarationHead ++ type)) (declarationTail nullable))) (n : Nat) :
    ofStatement d ⟨n, declarationText type nullable⟩ = .ok { tables :=
      [{ name := "t", columns := [{ c with nullable := c.nullable && nullable }] }] } := by
  obtain ⟨k, hcolumn⟩ := columnDefinition_of_columnType h
  have helement :=
    (tableElement_of_name ⟨declarationText type nullable, d⟩ _).trans (bind_of_ok hcolumn _)
  rw [ofStatement_declarationText, bind_of_ok helement, tableRest_of_close _ _ (by simp)]
  rfl

/-! ### Parameters behind a type that has ended -/

/-- A token that starts no clause is passed over. -/
theorem columnClause_of_mark (draft : ColumnDraft) (src : Source) {t : Token} {ts : List Token}
    (hkeyword : t.keyword = "") (hnot : endsElement t = false)
    (hnext : ts.head?.any (·.isPunct '(') = false) :
    columnClause draft src (t :: ts) = .ok (some draft, ts) := by
  have hpeek : peek src (t :: ts) = .ok (some t, t :: ts) := rfl
  have hadvance : advance src (t :: ts) = .ok ((), ts) := rfl
  have hparen : peekIsPunct '(' src ts = .ok (false, ts) := by rw [peekIsPunct, hnext]
  have hskip : skipParenthesized src ts = .ok ((), ts) := by
    rw [skipParenthesized, bind_of_ok hparen]
    rfl
  rw [columnClause, bind_of_ok hpeek]
  dsimp only
  rw [hnot, hkeyword]
  exact (bind_of_ok hadvance _).trans (bind_of_ok hskip _)

theorem columnClause_of_endsElement (draft : ColumnDraft) (src : Source) {t : Token} (ts : List Token)
    (h : endsElement t = true) : columnClause draft src (t :: ts) = .ok (none, t :: ts) := by
  have hpeek : peek src (t :: ts) = .ok (some t, t :: ts) := rfl
  rw [columnClause, bind_of_ok hpeek]
  dsimp only
  rw [h]
  rfl

/-- The clauses end at the first comma or parenthesis in what were to be the parameters. -/
theorem columnClauses_of_parameters (draft : ColumnDraft) (src : Source) {number close : Token}
    (k : Nat) (rest : List Token) (hnumber : number.kind = .number) (hclose : endsElement close = true) :
    many columnClause draft src (⟨.punct, ['('], k⟩ :: number :: close :: rest) =
      .ok (draft, close :: rest) := by
  have hpunct : ∀ c, number.isPunct c = false := by
    intro c
    rw [Token.isPunct, hnumber]
    rfl
  have hkeyword : number.keyword = "" := by
    rw [Token.keyword, hnumber]
    rfl
  have hopen : columnClause draft src (⟨.punct, ['('], k⟩ :: number :: close :: rest) =
      .ok (some draft, number :: close :: rest) :=
    columnClause_of_mark draft src rfl rfl (hpunct '(')
  have hparameter : columnClause draft src (number :: close :: rest) =
      .ok (some draft, close :: rest) :=
    columnClause_of_mark draft src hkeyword (by rw [endsElement, hpunct, hpunct]; rfl)
      (isPunct_of_endsElement hclose (by decide))
  rw [many_of_some hopen (Nat.lt_succ_self _), many_of_some hparameter (Nat.lt_succ_self _)]
  exact many_of_none (columnClause_of_endsElement draft src rest hclose)

/-- Behind `(n` and a `)` the table has ended, and behind `(p,` a column has no name. -/
theorem exists_tableRest_error (src : Source) {table : Table} (hcolumns : table.columns ≠ []) (k : Nat)
    (ns : List UInt32) : ∃ e, tableRest "t" table src (place k
      (ns.flatMap (fun n => [punct ',', ofNat n.toNat]) ++ punct ')' :: declarationTail false)) =
        .error e := by
  cases ns with
  | nil =>
    have hmany : many (fun table => do
        if ← eatPunct ',' then some <$> tableElement table else return none) table src
        (place k (punct ')' :: declarationTail false)) =
          .ok (table, place k (punct ')' :: declarationTail false)) := many_of_none rfl
    have hclose : expectPunct ')' src (place k (punct ')' :: declarationTail false)) =
        .ok ((), place (k + 1) (declarationTail false)) := rfl
    have hempty : table.columns.isEmpty = false := by simpa using hcolumns
    have hoption : tableOption "t" () src (place (k + 1) (declarationTail false)) =
        .error ⟨.textAfterTable "t", some ⟨.word, "NOT".toList, k + 1 + 1⟩⟩ := rfl
    refine ⟨⟨.textAfterTable "t", some ⟨.word, "NOT".toList, k + 1 + 1⟩⟩, ?_⟩
    rw [List.flatMap_nil, List.nil_append, tableRest, bind_of_ok hmany, bind_of_ok hclose, hempty]
    exact bind_of_error (bind_of_error (many_of_error hoption) _) _
  | cons n ns =>
    refine ⟨⟨.expectedIdent, some ⟨.number, (ofNat n.toNat).text, k + 1⟩⟩, ?_⟩
    exact bind_of_error (many_of_error rfl) _

/-- A type that has ended leaves no place for parameters. -/
theorem exists_ofStatement_error {ns : List UInt32} (hne : ns ≠ []) {k : Nat}
    (h : columnType "x" ⟨declarationText (type ++ textOf (Atom.parameters ns)) false, d⟩
      (Lexer.tokensFrom d.rules (width (textOf declarationHead))
        (type ++ textOf (Atom.parameters ns) ++ textOf (declarationTail false))) =
          .ok (c, place k (Atom.parameters ns ++ declarationTail false))) (n : Nat) :
    ∃ e, ofStatement d ⟨n, declarationText (type ++ textOf (Atom.parameters ns)) false⟩ =
      .error e := by
  obtain ⟨first, ns, rfl⟩ := List.exists_cons_of_ne_nil hne
  generalize hrest : ns.flatMap (fun n => [punct ',', ofNat n.toNat]) ++
    punct ')' :: declarationTail false = rest
  have hatoms : Atom.parameters (first :: ns) ++ declarationTail false =
      punct '(' :: ofNat first.toNat :: rest := by
    rw [← hrest]
    simp [Atom.parameters, numbers]
  have hplace : place k (Atom.parameters (first :: ns) ++ declarationTail false) =
      ⟨.punct, ['('], k⟩ :: ⟨.number, (ofNat first.toNat).text, k + 1⟩ ::
        place (k + 1 + width (ofNat first.toNat).text) rest := by
    rw [hatoms]
    rfl
  obtain ⟨close, more, hmore, hclose⟩ : ∃ close more,
      place (k + 1 + width (ofNat first.toNat).text) rest = close :: more ∧ endsElement close = true := by
    rw [← hrest]
    cases ns with
    | nil => exact ⟨_, _, rfl, rfl⟩
    | cons n ns => exact ⟨_, _, rfl, rfl⟩
  have hcolumns : ({ name := "t", columns := [c] } : Table).columns ≠ [] := by simp
  obtain ⟨e, he⟩ := exists_tableRest_error
    ⟨declarationText (type ++ textOf (Atom.parameters (first :: ns))) false, d⟩ hcolumns
    (k + 1 + width (ofNat first.toNat).text) ns
  rw [hrest, hmore] at he
  rw [hplace, hmore] at h
  generalize hsrc : (⟨declarationText (type ++ textOf (Atom.parameters (first :: ns))) false, d⟩ :
    Source) = src at h he
  -- the column takes the parenthesis and the first number as clauses that it does not know
  have hident : ∀ ts, ident src (nameToken :: ts) = .ok ("x", ts) := fun _ => rfl
  have hcolumn : columnDefinition src (nameToken :: Lexer.tokensFrom d.rules
      (width (textOf declarationHead)) (type ++ textOf (Atom.parameters (first :: ns)) ++
        textOf (declarationTail false))) = .ok ((c, []), close :: more) := by
    rw [columnDefinition, bind_of_ok (hident _), bind_of_ok h]
    exact bind_of_ok (columnClauses_of_parameters { column := c } src k more rfl hclose) _
  have helement := (tableElement_of_name src _).trans (bind_of_ok hcolumn _)
  refine ⟨e.error n (declarationText (type ++ textOf (Atom.parameters (first :: ns))) false), ?_⟩
  rw [ofStatement_declarationText, hsrc, bind_of_ok helement, he]

end DdlBridge
