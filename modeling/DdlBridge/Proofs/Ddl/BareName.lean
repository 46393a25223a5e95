import DdlBridge.Proofs.Ddl.Statements
import DdlBridge.Proofs.Ddl.Writing
import DdlBridge.Proofs.Grammar.Head
import DdlBridge.Proofs.Statement.Front
import DdlBridge.Proofs.Token.Junction

/-!
# Names without quotes

A table of one column is parsed as it was, whatever its names are, unless one of them is written
without quotes where the parser takes it for something else (`parse_createTable_iff`).
-/

namespace DdlBridge

open Text Atom Ddl DdlBridge.Parser DdlBridge.Grammar Statement Scanner

variable {d : Dialect} {table column : String}

/-! ### One column -/

/-- A column of a plain type. -/
def Column.named (column : String) : Column := { name := column, dataType := "INT" }

/-- A table with such a column. -/
def Table.named (table column : String) : Table :=
  { name := table, columns := [Column.named column] }

/-- What defines the table behind `CREATE`. -/
def Atom.named (d : Dialect) (table column : String) : List Atom :=
  Atom.table d table [.column (Column.named column) []]

theorem parametrized_named (column : String) : (Column.named column).Parametrized := by
  have hnot : "INT" ∉ numericTypes := by decide
  rw [Column.Parametrized, Column.named, if_neg hnot]
  exact ⟨rfl, rfl⟩

theorem plainType_named (column : String) : PlainType (Column.named column).dataType := by
  show PlainType "INT"
  decide

theorem createTable_named (d : Dialect) (table column : String) :
    (Style.of d).createTable (Table.named table column) =
      .ok (String.ofList (statementText (Atom.named d table column))) := by
  have hclauses : (Column.named column).clauses d none false = [] := by cases d <;> rfl
  have htext : Atom.textOf ((Column.named column).atoms d []) =
      ((Style.of d).columnDef (Column.named column) false).toList := by
    rw [← hclauses]
    exact textOf_column (parametrized_named column) rfl (fun _ h => absurd h (by simp [Column.named]))
  have hlines : [Element.column (Column.named column) []].map (fun e => Atom.textOf (e.atoms d)) =
      ((Style.of d).tableLines (Table.named table column)).map String.toList :=
    congrArg ([·]) htext
  rw [createTable_eq (by simp) hlines (by simp [Table.named]), Atom.textOf_append]
  rfl

theorem row_named (hcolumn : Readable column) :
    (Element.column (Column.named column) []).Lined d := by
  have hname : Readable (Column.named column).name := hcolumn
  exact ⟨row_column hname (plainType_named column) fun _ h => absurd h List.not_mem_nil,
    long_column hname (plainType_named column) []⟩

theorem scanned_named (htable : Readable table) (hcolumn : Readable column) :
    Scanned d (Atom.create (Atom.named d table column)) :=
  scanned_table htable (by simp) (by simpa using row_named hcolumn)

/-- With two names that are read back the table is. -/
theorem parse_named (htable : Readable table) (hcolumn : ReadableColumn d column) :
    parseScript d (statementText (Atom.named d table column)) =
      .ok { tables := [Table.named table column] } := by
  have hscanned := scanned_named (d := d) htable hcolumn.name
  have hname : ReadableColumn d (Column.named column).name := hcolumn
  have helement : (Element.column (Column.named column) []).Plain d :=
    .column hname (plainType_named column) (parametrized_named column)
      (fun _ h => absurd h List.not_mem_nil) (fun _ h => absurd h List.not_mem_nil) rfl
  have hread : ofStatement d ⟨0, Atom.textOf (Atom.create (Atom.named d table column))⟩ = _ :=
    ofStatement_table rfl hscanned.apart (by simp) (by simpa using helement) ⟨rfl, trivial⟩
      (by simp [tableOf, Element.apply])
  rw [parseScript_statementText hscanned (firm_table d table _), define_cons_of_ok hread]
  rfl

/-! ### A dollar sign -/

theorem takeToken_dollar (rules : LexicalRules) (cs : List Char) :
    (Lexer.takeToken rules '$' cs).1 = .punct ∨ (Lexer.takeToken rules '$' cs).1 = .dollarString := by
  unfold Lexer.takeToken Lexer.readers
  cases rules.dollarQuotes with
  | false =>
    left
    cases rules.backtickQuotes <;> cases rules.bracketQuotes <;> rfl
  | true =>
    cases htake : Lexer.takeDollar? ('$' :: cs) with
    | none =>
      left
      cases rules.backtickQuotes <;> cases rules.bracketQuotes <;> simp [Lexer.firstOf, htake] <;> rfl
    | some taken =>
      right
      cases rules.backtickQuotes <;> cases rules.bracketQuotes <;> simp [Lexer.firstOf, htake]

/-- Without a name before it no token starts with a dollar sign that is a name. -/
theorem exists_tokensFrom_dollar (rules : LexicalRules) (n : Nat) (cs : List Char) :
    ∃ t ts, Lexer.tokensFrom rules n ('$' :: cs) = t :: ts ∧ t.ident? = none := by
  have htrivia : (Lexer.takeTrivia rules.hashComments ('$' :: cs)).2 = '$' :: cs := by
    rw [Lexer.takeTrivia_of_not_blank _ (by decide)]
    rfl
  obtain ⟨start, ts, htokens⟩ := tokensFrom_of_trivia rules n htrivia
  refine ⟨_, ts, htokens, ?_⟩
  rcases takeToken_dollar rules cs with h | h <;> rw [Token.ident?, h]

theorem Token.keyword_of_ident? {t : Token} (h : t.ident? = none) : t.keyword = "" := by
  rw [Token.keyword, if_neg]
  intro hkind
  rw [Token.ident?, hkind] at h
  exact absurd h (by simp)

theorem Token.isWord_of_ident? {t : Token} (h : t.ident? = none) (w : String) : t.isWord w = false := by
  unfold Token.ident? at h
  unfold Token.isWord
  cases hkind : t.kind with
  | word =>
    rw [hkind] at h
    exact absurd h (by simp)
  | _ => rfl

theorem ident_of_none {src : Source} {t : Token} (h : t.ident? = none) (ts : List Token) :
    ident src (t :: ts) = .error ⟨.expectedIdent, some t⟩ := by
  rw [ident, h]

/-- A script is rejected if a dollar sign stands where the parser wants a name. -/
theorem exists_error_of_dollar {front : List Atom} {cs : List Char} (hapart : Apart d.rules front)
    (hlast : front.getLast? = some (blank ' ')) (hfirst : Atom.textOf front = 'C' :: cs)
    (hfree : CutFree d.rules (Atom.textOf front))
    (hname : ∀ src t ts, t.ident? = none → ∃ e, statement src (place 0 front ++ t :: ts) = .error e)
    (rest : List Char) : ∃ e, parseScript d (Atom.textOf front ++ '$' :: rest) = .error e := by
  have hkeep : KeepsFront d.rules ('C' :: cs ++ ['$']) :=
    isPrefix_stripTerminator_of_mark (by decide) (by decide) (by decide)
  have hcontent : (after d.rules ['C']).content = true := by cases d <;> rfl
  have hends : ∀ a ∈ front.getLast?, ∀ cs : List Char, ∀ c ∈ cs.head?, a.endsAt c = true := by
    intro a ha _ _ _
    rw [hlast] at ha
    obtain rfl := Option.some.inj ha
    rfl
  have hreject : ∀ s : Statement, 'C' :: (cs ++ ['$']) <+: s.text → ∃ e, ofStatement d s = .error e := by
    rintro s ⟨z, hz⟩
    have htext : s.text = Atom.textOf front ++ '$' :: z := by
      rw [← hz, hfirst]
      simp
    obtain ⟨t, ts, htokens, hident⟩ :=
      exists_tokensFrom_dollar d.rules (0 + width (Atom.textOf front)) z
    have hall := hapart.tokensFrom_append (fun a ha => hends a ha ('$' :: z)) 0
    obtain ⟨e, he⟩ := hname ⟨s.text, d⟩ t ts hident
    rw [ofStatement_eq, tokenize, htext, hall, htokens, ← htext, he]
    exact ⟨_, rfl⟩
  have hdollar : CutFree d.rules ('C' :: (cs ++ ['$'])) := by
    rw [hfirst] at hfree
    exact hfree.append_inline (by decide)
  have hparts : Atom.textOf front ++ '$' :: rest = 'C' :: (cs ++ ['$']) ++ rest := by
    rw [hfirst]
    simp
  rw [hparts]
  exact exists_parseScript_error hkeep (by decide) hcontent hdollar hreject rest

theorem statement_of_table (src : Source) (ts : List Token) :
    statement src (⟨.word, "CREATE".toList, 0⟩ :: ⟨.word, "TABLE".toList, 7⟩ :: ts) =
      (tableDefinition >>= fun found => pure { tables := found.toList }) src
        (⟨.word, "TABLE".toList, 7⟩ :: ts) := rfl

theorem exists_error_of_table (d : Dialect) (rest : List Char) :
    ∃ e, parseScript d ("CREATE TABLE ".toList ++ '$' :: rest) = .error e := by
  have happart : Apart d.rules (spell ["CREATE", "TABLE"] ++ [blank ' ']) :=
    (row_spell (by decide +kernel)).apart.append (Apart.nil.blank (by decide)) (led_blank _)
  have hfree : CutFree d.rules "CREATE TABLE ".toList := Inline.cutFree (by decide)
  refine exists_error_of_dollar happart rfl rfl hfree (fun src t ts ht => ?_) rest
  have htable : expectWord "TABLE" src (⟨.word, "TABLE".toList, 7⟩ :: t :: ts) = .ok ((), t :: ts) := rfl
  have hexists : (discard (eatWords ["IF", "NOT", "EXISTS"]) : Parser PUnit) src (t :: ts) =
      .ok ((), t :: ts) := bind_of_ok (eatWords_of_not _ (Token.isWord_of_ident? ht "IF")) _
  have hname : objectName src (t :: ts) = .error ⟨.expectedIdent, some t⟩ :=
    bind_of_error (ident_of_none ht ts) _
  have hdefinition : tableDefinition src (⟨.word, "TABLE".toList, 7⟩ :: t :: ts) =
      .error ⟨.expectedIdent, some t⟩ := by
    rw [tableDefinition, bind_of_ok htable, bind_of_ok hexists]
    exact bind_of_error hname _
  refine ⟨⟨.expectedIdent, some t⟩, ?_⟩
  exact (statement_of_table src (t :: ts)).trans (bind_of_error hdefinition _)

/-- The line that a table starts on, up to where its first column starts. -/
def Atom.columnFront (d : Dialect) (table : String) : List Atom :=
  Atom.create (Atom.tableHead d table) ++ Atom.indent

theorem apart_columnFront (htable : Readable table) : Apart d.rules (columnFront d table) :=
  (row_create (by decide) (row_tableHead htable)).apart.append (apart_indent .nil) (led_newline _)

theorem cutFree_columnFront (htable : Readable table) :
    CutFree d.rules (Atom.textOf (columnFront d table)) := by
  have hblanks : Row d.rules (List.replicate 4 (blank ' ')) := (row_nil _).blank.blank.blank.blank
  have hthrough : Through (fun s => ∃ k, Defining d.rules k s) (fresh d.rules)
      (lexemesOf (columnFront d table)) := by
    rw [columnFront, lexemesOf_append]
    refine (filled_create (by decide) (row_tableHead htable)).append fun t ht => ?_
    obtain ⟨huncut, hbehind⟩ := ht.nextLine hblanks
    exact ⟨huncut, _, hbehind⟩
  have hscript := (apart_columnFront (d := d) htable).script
  rw [CutFree, ← textOf_lexemesOf, (feedText_fresh hscript).2]
  exact hthrough.uncut

theorem atConstraint_of_ident? {src : Source} {t : Token} (h : t.ident? = none) (ts : List Token) :
    atConstraint src (t :: ts) = .ok (false, t :: ts) := by
  have hpeek : peekKeyword src (t :: ts) = .ok ("", t :: ts) := by
    rw [← Token.keyword_of_ident? h]
    rfl
  have hsource : source src (t :: ts) = .ok (src, t :: ts) := rfl
  rw [atConstraint, bind_of_ok hsource]
  exact bind_of_ok hpeek _

theorem exists_error_of_column (htable : Readable table) (rest : List Char) :
    ∃ e, parseScript d (Atom.textOf (columnFront d table) ++ '$' :: rest) = .error e := by
  refine exists_error_of_dollar (apart_columnFront htable) rfl rfl (cutFree_columnFront htable)
    (fun src t ts ht => ?_) rest
  obtain ⟨n, hplace⟩ : ∃ n, place 0 (columnFront d table) = ⟨.word, "CREATE".toList, 0⟩ ::
      ⟨.word, "TABLE".toList, 7⟩ :: Token.ofName d table 13 :: [⟨.punct, ['('], n⟩] := by
    refine ⟨13 + width (Atom.name d table).text + 1, ?_⟩
    rw [columnFront, place_append, Atom.create, Atom.tableHead, place, place, place, place, place_name]
    rfl
  have htable : expectWord "TABLE" src (⟨.word, "TABLE".toList, 7⟩ :: Token.ofName d table 13 ::
      ⟨.punct, ['('], n⟩ :: t :: ts) = .ok ((), Token.ofName d table 13 :: _) := rfl
  have hexists : (discard (eatWords ["IF", "NOT", "EXISTS"]) : Parser PUnit) src
      (Token.ofName d table 13 :: ⟨.punct, ['('], n⟩ :: t :: ts) = .ok ((), _) :=
    bind_of_ok (eatWords_of_not_second _ rfl) _
  have hname : objectName src (Token.ofName d table 13 :: ⟨.punct, ['('], n⟩ :: t :: ts) =
      .ok (table, ⟨.punct, ['('], n⟩ :: t :: ts) :=
    objectName_of_name d table 13 fun u hu => Option.some.inj hu ▸ rfl
  have hopen : eatPunct '(' src (⟨.punct, ['('], n⟩ :: t :: ts) = .ok (true, t :: ts) := rfl
  have hcolumn : columnDefinition src (t :: ts) = .error ⟨.expectedIdent, some t⟩ :=
    bind_of_error (ident_of_none ht ts) _
  have helement : tableElement { name := table } src (t :: ts) = .error ⟨.expectedIdent, some t⟩ := by
    rw [tableElement, bind_of_ok (atConstraint_of_ident? ht ts)]
    exact bind_of_error hcolumn _
  have hdefinition : tableDefinition src (⟨.word, "TABLE".toList, 7⟩ :: Token.ofName d table 13 ::
      ⟨.punct, ['('], n⟩ :: t :: ts) = .error ⟨.expectedIdent, some t⟩ := by
    rw [tableDefinition, bind_of_ok htable, bind_of_ok hexists, bind_of_ok hname, bind_of_ok hopen]
    exact bind_of_error helement _
  refine ⟨⟨.expectedIdent, some t⟩, ?_⟩
  rw [hplace]
  exact (statement_of_table src _).trans (bind_of_error hdefinition _)

/-! ### A word that starts an index -/

/-- From these atoms the parser makes nothing, wherever they stand. -/
def Parser.Fails {α : Type} (d : Dialect) (p : Parser α) (as : List Atom) : Prop :=
  ∀ front : List Char, ∃ e, p ⟨front ++ Atom.textOf as, d⟩ (place (width front) as) = .error e

theorem Parser.Reads.fails {α β : Type} {l r : List Atom} {p : Parser α} {f : α → Parser β} {a : α}
    (hp : Reads d p l a r) (hf : Fails d (f a) r) : Fails d (p >>= f) (l ++ r) := by
  intro front
  obtain ⟨e, he⟩ := hf (front ++ Atom.textOf l)
  have hfirst := hp front
  rw [List.append_assoc, ← Atom.textOf_append, width_append] at he
  exact ⟨e, (bind_of_ok hfirst f).trans he⟩

theorem Parser.Fails.blank {α : Type} {p : Parser α} {as : List Atom} (h : Fails d p as) (c : Char) :
    Fails d p (.blank c :: as) := by
  intro front
  obtain ⟨e, he⟩ := h (front ++ [c])
  rw [List.append_assoc, width_append] at he
  exact ⟨e, he⟩

theorem Parser.Fails.indent {α : Type} {p : Parser α} {as : List Atom} (h : Fails d p as) :
    Fails d p (Atom.indent ++ as) :=
  ((((h.blank ' ').blank ' ').blank ' ').blank ' ').blank '\n'

/-- The word starts an index in MySQL. -/
def StartsIndex (d : Dialect) (name : String) : Prop :=
  d = .mysql ∧ needsQuoting name = false ∧ upper name.toList ∈ ["FULLTEXT".toList, "SPATIAL".toList]

theorem keyword_of_startsIndex (h : StartsIndex d column) (as : List Atom) (n : Nat) :
    ((place n (Atom.name d column :: as)).head?.map (·.keyword)).getD "" ∈ ["FULLTEXT", "SPATIAL"] := by
  obtain ⟨-, hquoting, hupper⟩ := h
  have hname : Atom.name d column = .word column.toList := by
    rw [Atom.name, hquoting]
    rfl
  have hkeyword : ((place n (Atom.name d column :: as)).head?.map (·.keyword)).getD "" =
      String.ofList (upper column.toList) := by
    rw [hname]
    rfl
  have hall : ∀ w ∈ ["FULLTEXT".toList, "SPATIAL".toList],
      String.ofList w ∈ ["FULLTEXT", "SPATIAL"] := by
    decide
  rw [hkeyword]
  exact hall _ hupper

theorem reads_atConstraint_index (h : StartsIndex d column) (as : List Atom) :
    Reads d atConstraint [] true (Atom.name d column :: as) := by
  refine Reads.source fun text => Reads.peekKeyword fun n => ?_
  have hkeyword := keyword_of_startsIndex h as n
  obtain ⟨rfl, -⟩ := h
  rw [List.nil_append]
  generalize ((place n (Atom.name .mysql column :: as)).head?.map (·.keyword)).getD "" = w at hkeyword ⊢
  simp only [List.mem_cons, List.not_mem_nil, or_false] at hkeyword
  rcases hkeyword with rfl | rfl <;> exact Reads.pure true _

/-- Only punctuation ends an element. -/
theorem reads_skipElement_cons {a : Atom} {as more : List Atom} {kind : TokenKind}
    (hkind : a.kind? = some kind) (hpunct : kind ≠ .punct) (h : Reads d skipElement as () more) :
    Reads d skipElement (a :: as) () more := by
  intro front
  have hrest := h (front ++ a.text)
  rw [width_append, List.append_assoc, ← Atom.textOf_cons, ← List.cons_append] at hrest
  have hplace : place (width front) (a :: as ++ more) =
      ⟨kind, a.text, width front⟩ :: place (width front + width a.text) (as ++ more) :=
    place_of_kind hkind _ _
  have hnot : ∀ c, (⟨kind, a.text, width front⟩ : Token).isPunct c = false := by
    intro c
    rw [Token.isPunct, beq_eq_false_iff_ne.2 hpunct, Bool.false_and]
  have hends : endsElement ⟨kind, a.text, width front⟩ = false := by
    rw [endsElement, hnot, hnot]
    rfl
  have hdepth : depthAfter 0 ⟨kind, a.text, width front⟩ = 0 := by
    rw [depthAfter, hnot, hnot]
    rfl
  rw [hplace, skipElement, elementRest, hends, hdepth, if_neg (by simp), Atom.textOf_cons, width_append,
    ← Nat.add_assoc]
  exact hrest

/-- The word takes the whole element for an index. -/
theorem reads_tableConstraint_index (h : StartsIndex d column) {more : List Atom}
    (hmore : Follows EndsElement more) :
    Reads d tableConstraint ((Column.named column).atoms d []) none more := by
  have hkeyword : ∀ n, ((place n ((Column.named column).atoms d [] ++ more)).head?.map
      (·.keyword)).getD "" ∈ ["FULLTEXT", "SPATIAL"] := keyword_of_startsIndex h _
  have hnot : Follows (·.isWord "CONSTRAINT" = false) ((Column.named column).atoms d [] ++ more) := by
    intro n t ht
    have hn := hkeyword n
    rw [Option.mem_def.1 ht, Option.map_some, Option.getD_some] at hn
    refine isWord_of_keyword_ne (by decide) fun heq => ?_
    rw [heq] at hn
    exact absurd hn (by decide)
  refine Reads.bind_nil (reads_eatWords_none hnot) ?_
  refine Reads.bind_nil (Reads.pure none _) (Reads.peekKeyword fun n => ?_)
  have hn := hkeyword n
  have hskip : Reads d skipElement ((Column.named column).atoms d []) () more := by
    have htype : Reads d skipElement [word "INT".toList] () more :=
      reads_skipElement_cons rfl (by decide) (reads_skipElement hmore)
    refine reads_skipElement_cons (kind_name d column) ?_ (htype.blank ' ')
    split <;> decide
  generalize ((place n ((Column.named column).atoms d [] ++ more)).head?.map
    (·.keyword)).getD "" = w at hn ⊢
  simp only [List.mem_cons, List.not_mem_nil, or_false] at hn
  rcases hn with rfl | rfl <;> exact Reads.bind_pure hskip (Reads.pure none more)

theorem fails_tableDefinition (table : String) (h : StartsIndex d column) :
    Fails d tableDefinition (Atom.named d table column) := by
  have hend : Follows EndsElement [blank '\n', punct ')'] :=
    Follows.blank (follows_punct (fun _ => rfl) _) _
  have hcomma : Follows (·.isPunct ',' = false) [blank '\n', punct ')'] :=
    Follows.blank (follows_punct (fun _ => rfl) _) _
  have helement : Reads d (tableElement { name := table }) ((Column.named column).atoms d [])
      { name := table } [blank '\n', punct ')'] := by
    refine Reads.bind_nil (reads_atConstraint_index h _) ?_
    exact Reads.bind_pure (reads_tableConstraint_index h hend) (Reads.pure _ _)
  refine Reads.fails (l := spell ["TABLE"]) (reads_expectWords _ _) (Fails.blank ?_ ' ')
  refine Reads.fails (l := []) (reads_ifNotExists d table rfl (fun _ => rfl) _).discard ?_
  refine Reads.fails (l := [Atom.name d table])
    (reads_objectName d table (Follows.blank (follows_punct (fun _ => rfl) _) ' ')) (Fails.blank ?_ ' ')
  refine Reads.fails (l := [punct '('])
    (r := Atom.indent ++ ((Column.named column).atoms d [] ++ [blank '\n', punct ')']))
    (reads_eatPunct '(' _) (Fails.indent (Reads.fails helement ?_))
  refine Reads.fails (l := []) (Reads.many_nil (Reads.bind_nil (reads_eatPunct_none hcomma)
    (Reads.pure none _))) (Fails.blank ?_ '\n')
  refine Reads.fails (l := [punct ')']) (reads_expectPunct ')' []) ?_
  exact fun front => ⟨_, rfl⟩

/-- The statement is rejected for want of columns. -/
theorem exists_error_of_startsIndex (htable : Readable table) (hcolumn : Readable column)
    (h : StartsIndex d column) :
    ∃ e, parseScript d (statementText (Atom.named d table column)) = .error e := by
  have hscanned := scanned_named (d := d) htable hcolumn
  obtain ⟨e, he⟩ := fails_tableDefinition table h "CREATE ".toList
  have htokens : tokenize d (Atom.textOf (Atom.create (Atom.named d table column))) =
      ⟨.word, "CREATE".toList, 0⟩ :: place (width "CREATE ".toList) (Atom.named d table column) :=
    hscanned.apart.tokensFrom 0
  have hstatement : statement ⟨Atom.textOf (Atom.create (Atom.named d table column)), d⟩
      (⟨.word, "CREATE".toList, 0⟩ :: place (width "CREATE ".toList) (Atom.named d table column)) =
        .error e := (statement_of_table _ _).trans (bind_of_error he _)
  obtain ⟨e', hread⟩ : ∃ e', ofStatement d
      ⟨0, Atom.textOf (Atom.create (Atom.named d table column))⟩ = .error e' := by
    rw [ofStatement_eq, htokens, hstatement]
    exact ⟨_, rfl⟩
  exact ⟨e', (parseScript_statementText hscanned (firm_table d table _)).trans
    (define_cons_of_error hread)⟩

/-! ### The round trip -/

/-- A bare name that a dollar sign starts, as it is written. -/
theorem exists_text_of_not_plain {name : String} (hquoting : needsQuoting name = false)
    (hname : ¬ PlainName name) : ∃ cs, (Atom.name d name).text = '$' :: cs := by
  rw [PlainName, Classical.not_not] at hname
  obtain ⟨cs, hcs⟩ := List.head?_eq_some_iff.1 hname
  exact ⟨cs, by rw [Atom.name, hquoting]; exact hcs⟩

theorem exists_statementText_eq {as front more : List Atom} {a : Atom} {cs : List Char}
    (hatoms : Atom.create as = front ++ a :: more) (ha : a.text = '$' :: cs) :
    ∃ rest, statementText as = Atom.textOf front ++ '$' :: rest := by
  refine ⟨cs ++ (Atom.textOf more ++ [';']), ?_⟩
  rw [statementText, hatoms, Atom.textOf_append, Atom.textOf_cons, ha]
  simp

theorem exists_error_named (h : ¬ (Readable table ∧ ReadableColumn d column)) :
    ∃ e, parseScript d (statementText (Atom.named d table column)) = .error e := by
  by_cases htable : Readable table
  case neg =>
    rw [Readable, Classical.not_imp] at htable
    obtain ⟨cs, hcs⟩ := exists_text_of_not_plain (d := d) htable.1 htable.2
    have hatoms : Atom.create (Atom.named d table column) = spell ["CREATE", "TABLE"] ++ [blank ' '] ++
        Atom.name d table :: (blank ' ' :: punct '(' :: _) := rfl
    obtain ⟨rest, hrest⟩ := exists_statementText_eq hatoms hcs
    rw [hrest]
    exact exists_error_of_table d rest
  have hcolumn : ¬ ReadableColumn d column := fun hcolumn => h ⟨htable, hcolumn⟩
  rw [ReadableColumn, Classical.not_imp] at hcolumn
  obtain ⟨hquoting, hnot⟩ := hcolumn
  by_cases hname : PlainName column
  case neg =>
    obtain ⟨cs, hcs⟩ := exists_text_of_not_plain (d := d) hquoting hname
    have hatoms : Atom.create (Atom.named d table column) = columnFront d table ++
        Atom.name d column :: (blank ' ' :: word "INT".toList :: _) := rfl
    obtain ⟨rest, hrest⟩ := exists_statementText_eq hatoms hcs
    rw [hrest]
    exact exists_error_of_column htable rest
  have hindex : ¬ (d = .mysql → upper column.toList ∉ ["FULLTEXT".toList, "SPATIAL".toList]) :=
    fun hindex => hnot ⟨hname, hindex⟩
  rw [Classical.not_imp, Classical.not_not] at hindex
  exact exists_error_of_startsIndex htable (fun _ => hname) ⟨hindex.1, hquoting, hindex.2⟩

/-- A table of one column is parsed as it was unless a dollar sign starts one of its names that is
written without quotes or, in MySQL, the column is named `FULLTEXT` or `SPATIAL`. -/
theorem parse_createTable_iff (d : Dialect) (table column : String) : ∃ ddl,
    (Style.of d).createTable (Table.named table column) = .ok ddl ∧
    (parse d ddl = .ok { tables := [Table.named table column] } ↔
      Readable table ∧ ReadableColumn d column) ∧
    (¬ (Readable table ∧ ReadableColumn d column) → ∃ e, parse d ddl = .error e) := by
  have hparse : parse d (String.ofList (statementText (Atom.named d table column))) =
      parseScript d (statementText (Atom.named d table column)) := by
    rw [parse, String.toList_ofList]
  refine ⟨_, createTable_named d table column, ?_⟩
  rw [hparse]
  refine ⟨⟨fun hok => ?_, fun h => parse_named h.1 h.2⟩, exists_error_named⟩
  by_contra hnot
  obtain ⟨e, he⟩ := exists_error_named hnot
  rw [hok] at he
  exact absurd he (by simp)

end DdlBridge
