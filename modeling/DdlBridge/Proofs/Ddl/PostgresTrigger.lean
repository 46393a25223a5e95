import DdlBridge.Proofs.Ddl.Statements
import DdlBridge.Proofs.Ddl.TriggerHead
import DdlBridge.Proofs.Statement.Misread
import DdlBridge.Proofs.Statement.TriggerStatement

/-!
# Triggers of Postgres

A body that calls no function becomes that of one, between `$$` and `$$`. The text is the function and
a trigger that calls it, unless the body has a `$$` itself (`createTrigger_wraps_iff`).
-/

namespace DdlBridge

open Text Atom Ddl

variable {t : Trigger}

/-! ### The text -/

/-- The function that a body becomes is named after the trigger. -/
def Trigger.function (t : Trigger) : String := t.name ++ "_fn"

/-- What stands between `$$` and `$$`. -/
def Trigger.quotedBody (t : Trigger) : List Char :=
  '\n' :: ((terminated (String.ofList t.trimmed)).toList ++ ['\n'])

namespace Atom

/-- The function up to its body. -/
def functionHead (t : Trigger) : List Atom :=
  Atom.create (spell ["OR", "REPLACE", "FUNCTION"] ++
    blank ' ' :: Atom.name .postgres t.function :: punct '(' :: punct ')' ::
      blank ' ' :: spell ["RETURNS", "trigger", "AS"]) ++ [blank ' ']

/-- The function behind its body. -/
def functionTail : List Atom := blank ' ' :: spell ["LANGUAGE", "plpgsql"]

/-- The call of the function. -/
def functionCall (t : Trigger) : List Atom :=
  spell ["EXECUTE", "FUNCTION"] ++ blank ' ' :: Atom.name .postgres t.function :: [punct '(', punct ')']

/-- A trigger that calls the function. -/
def callingTrigger (t : Trigger) : List Atom :=
  triggerLine .postgres t ++ blank '\n' :: functionCall t

end Atom

/-- The function without the `;` that ends it. -/
def functionText (t : Trigger) : List Char :=
  textOf (functionHead t) ++ ('$' :: '$' :: (t.quotedBody ++ '$' :: '$' :: textOf functionTail))

theorem textOf_functionHead (t : Trigger) : textOf (functionHead t) =
    ("CREATE OR REPLACE FUNCTION " ++ (Style.of .postgres).quote t.function ++
      "() RETURNS trigger AS ").toList := by
  have hwords : "CREATE OR REPLACE FUNCTION ".toList =
      textOf (Atom.create (spell ["OR", "REPLACE", "FUNCTION"]) ++ [blank ' ']) := by decide
  have hreturns : "() RETURNS trigger AS ".toList = textOf (punct '(' :: punct ')' :: blank ' ' ::
      spell ["RETURNS", "trigger", "AS"] ++ [blank ' ']) := by decide
  have hparts : functionHead t = Atom.create (spell ["OR", "REPLACE", "FUNCTION"]) ++ [blank ' '] ++
      Atom.name .postgres t.function :: (punct '(' :: punct ')' :: blank ' ' ::
        spell ["RETURNS", "trigger", "AS"] ++ [blank ' ']) := rfl
  rw [hparts, textOf_append, textOf_cons, text_name, String.toList_append, String.toList_append, hwords,
    hreturns, List.append_assoc]

theorem textOf_callingTrigger (t : Trigger) : textOf (Atom.create (callingTrigger t)) =
    textOf (Atom.create (triggerLine .postgres t)) ++ '\n' :: textOf (functionCall t) := by
  have hparts : Atom.create (callingTrigger t) =
      Atom.create (triggerLine .postgres t) ++ blank '\n' :: functionCall t := rfl
  rw [hparts, textOf_append, textOf_cons]
  rfl

theorem textOf_functionCall (t : Trigger) : textOf (functionCall t) =
    ("EXECUTE FUNCTION " ++ (Style.of .postgres).quote t.function ++ "()").toList := by
  have hwords : "EXECUTE FUNCTION ".toList = textOf (spell ["EXECUTE", "FUNCTION"] ++ [blank ' ']) := by
    decide
  have hparts : functionCall t = spell ["EXECUTE", "FUNCTION"] ++ [blank ' '] ++
      Atom.name .postgres t.function :: [punct '(', punct ')'] := rfl
  rw [hparts, textOf_append, textOf_cons, text_name, String.toList_append, String.toList_append, hwords,
    List.append_assoc]
  rfl

theorem toList_postgresTrigger (hexecute : startsWith "EXECUTE " t.trimmed = false) :
    ((Style.of .postgres).createTrigger t).toList =
      functionText t ++ [';'] ++ (List.replicate 2 '\n' ++ statementText (callingTrigger t)) := by
  have hopen : "() RETURNS trigger AS $$\n".toList = "() RETURNS trigger AS ".toList ++ ['$', '$', '\n'] := by
    decide
  have hclose : "\n$$ LANGUAGE plpgsql;\n\n".toList =
      '\n' :: '$' :: '$' :: (textOf functionTail ++ [';', '\n', '\n']) := by decide
  have hcall : "\nEXECUTE FUNCTION ".toList = '\n' :: "EXECUTE FUNCTION ".toList := by decide
  have hend : "();".toList = "()".toList ++ [';'] := by decide
  show ((Style.of .postgres).postgresTrigger t).toList = _
  unfold Style.postgresTrigger
  dsimp only
  rw [if_neg (by rw [← Trigger.trimmed, hexecute]; simp)]
  rw [functionText, statementText, textOf_callingTrigger, textOf_triggerLine, textOf_functionHead,
    textOf_functionCall, Trigger.quotedBody]
  simp only [String.toList_append]
  rw [hopen, hclose, hcall, hend]
  simp only [List.append_assoc, List.cons_append, List.nil_append]
  rfl

/-! ### The function -/

open Statement Scanner Grammar

theorem lineFree_postgres : LineFree Dialect.postgres.rules := ⟨rfl, rfl⟩

theorem plainName_function (hname : PlainName t.name) : PlainName t.function :=
  hname.append (by decide)

/-- A lexeme that opens and closes no block and ends no statement. -/
def Statement.Lexeme.Inner (l : Lexeme) : Prop := l.keyword ∉ nestingWords ∧ l ≠ .punct ';'

instance (l : Lexeme) : Decidable l.Inner := inferInstanceAs (Decidable (_ ∧ _))

theorem Statement.Level.inner {rules : LexicalRules} {s : Scanner} {ls : List Lexeme}
    (h : Level rules 0 s) (hfree : LineFree rules) (hscript : Script rules ls)
    (hinner : ∀ l ∈ ls, l.Inner) : Through (Level rules 0) s ls :=
  h.run hfree hscript.formed (fun l hl => (hinner l hl).1) (.inr fun hmem => (hinner _ hmem).2 rfl)

theorem inner_of_keyword {l : Lexeme} (hl : ∀ c, l ≠ .punct c) (hkeyword : l.keyword = "") : l.Inner := by
  have hnone : "" ∉ nestingWords := by decide
  exact ⟨hkeyword ▸ hnone, hl ';'⟩

/-- A name with a `_` opens and closes no block. -/
theorem inner_function (t : Trigger) : ∀ l ∈ lexemesOf [Atom.name .postgres t.function], l.Inner := by
  have hall : ∀ w ∈ nestingWords, '_' ∉ w.toList := by decide
  have hmem : '_' ∈ upper t.function.toList :=
    List.mem_map.2 ⟨'_', by simp [Trigger.function], rfl⟩
  intro l hl
  unfold Atom.name at hl
  split at hl
  case isTrue =>
    rw [List.mem_singleton.1 hl]
    exact inner_of_keyword (by simp) rfl
  case isFalse =>
    rw [List.mem_singleton.1 hl]
    refine ⟨fun hkeyword => hall _ hkeyword ?_, by simp⟩
    rwa [Lexeme.keyword, String.toList_ofList]

theorem apart_functionHead (hname : PlainName t.name) :
    Apart Dialect.postgres.rules (functionHead t) := by
  have hreturns : Row Dialect.postgres.rules (blank ' ' :: spell ["RETURNS", "trigger", "AS"]) :=
    (row_spell (by decide +kernel)).blank
  have hrest := row_name (d := .postgres) (plainName_function hname).readable
    ((hreturns.mark (c := ')') (by decide) (by decide)).mark (c := '(') (by decide) (by decide))
    (led_mark (by decide) _)
  have hwords : Row Dialect.postgres.rules (spell ["CREATE", "OR", "REPLACE", "FUNCTION"]) :=
    row_spell (by decide +kernel)
  exact (hwords.append hrest.blank (led_blank _)).apart.append (Apart.nil.blank (by decide)) (led_blank _)

theorem row_functionTail : Row Dialect.postgres.rules functionTail :=
  (row_spell (by decide +kernel)).blank

theorem infix_quotedBody_iff (t : Trigger) :
    ['$', '$'] <:+: t.quotedBody ++ ['$'] ↔ ['$', '$'] <:+: t.trimmed := by
  have hone : ¬ ['$', '$'] <:+: ['$'] := fun h => absurd h.length_le (by decide)
  have hnone : ¬ ['$', '$'] <:+: ([] : List Char) := fun h => absurd h.length_le (by decide)
  have hterminated : ['$', '$'] <:+: (terminated (String.ofList t.trimmed)).toList ↔
      ['$', '$'] <:+: t.trimmed := by
    rw [toList_terminated_trimmed]
    split
    · rw [List.append_nil]
    · rw [infix_append_cons_iff (by decide), or_iff_left hnone]
  have hparts : t.quotedBody ++ ['$'] =
      [] ++ '\n' :: ((terminated (String.ofList t.trimmed)).toList ++ '\n' :: ['$']) := by
    rw [Trigger.quotedBody, List.cons_append, List.append_assoc]
    rfl
  rw [hparts, infix_append_cons_iff (by decide), infix_append_cons_iff (by decide), or_iff_left hone,
    or_iff_right hnone, hterminated]

/-- What a scanner reads the function as. -/
def functionLexemes (t : Trigger) : List Lexeme :=
  lexemesOf (functionHead t) ++ .dollar [] t.quotedBody :: lexemesOf functionTail

theorem textOf_functionLexemes (t : Trigger) : Statement.textOf (functionLexemes t) = functionText t := by
  have hparts : Statement.textOf (functionLexemes t) = Statement.textOf (lexemesOf (functionHead t)) ++
      ((Lexeme.dollar [] t.quotedBody).text ++ Statement.textOf (lexemesOf functionTail)) := by
    rw [functionLexemes, Statement.textOf, List.flatMap_append, List.flatMap_cons]
    rfl
  rw [hparts, textOf_lexemesOf, textOf_lexemesOf, functionText]
  simp [Lexeme.text]

theorem script_functionLexemes (hname : PlainName t.name) (hbody : ¬ ['$', '$'] <:+: t.trimmed) :
    Script Dialect.postgres.rules (functionLexemes t ++ [.punct ';']) := by
  have hdollar : (Lexeme.dollar [] t.quotedBody).Formed Dialect.postgres.rules :=
    .dollar rfl (by simp) (by simp) (by rwa [← infix_quotedBody_iff] at hbody)
  have htail : Script Dialect.postgres.rules (lexemesOf (functionTail ++ [punct ';'])) :=
    (row_functionTail.apart.append (Apart.nil.mark (by decide)) (led_mark (by decide) _)).script
  have hparts : functionLexemes t ++ [.punct ';'] = lexemesOf (functionHead t) ++
      .dollar [] t.quotedBody :: lexemesOf (functionTail ++ [punct ';']) := by
    rw [functionLexemes, lexemesOf_append, List.append_assoc]
    rfl
  rw [hparts]
  refine script_append (apart_functionHead hname).script (.cons hdollar (fun _ _ => rfl) htail) ?_
  intro l hl c _
  rw [functionHead, lexemesOf_append] at hl
  have hlast : lexemesOf [blank ' '] = [.blank ' '] := rfl
  rw [hlast, List.getLast?_concat] at hl
  obtain rfl := Option.some.inj hl
  rfl

theorem inner_functionLexemes (t : Trigger) : ∀ l ∈ functionLexemes t, l.Inner := by
  have hparts : functionLexemes t = lexemesOf (Atom.create (spell ["OR", "REPLACE", "FUNCTION"])) ++
      .blank ' ' :: (lexemesOf [Atom.name .postgres t.function] ++
        (lexemesOf (punct '(' :: punct ')' :: blank ' ' :: spell ["RETURNS", "trigger", "AS"]) ++
          .blank ' ' :: .dollar [] t.quotedBody :: lexemesOf functionTail)) := by
    rw [functionLexemes, functionHead]
    simp [Atom.create, lexemesOf, Atom.spell, lexemes]
  rw [hparts]
  simp only [List.forall_mem_append, List.forall_mem_cons]
  exact ⟨by decide, by decide, inner_function t, by decide, by decide, inner_of_keyword (by simp) rfl,
    by decide⟩

/-- The function is one statement. -/
theorem split_functionText (hname : PlainName t.name) (hbody : ¬ ['$', '$'] <:+: t.trimmed) :
    Begins Dialect.postgres.rules (functionText t ++ [';']) ∧
      split Dialect.postgres.rules (functionText t ++ [';']) = .ok [⟨0, functionText t⟩] := by
  have hscript := script_functionLexemes hname hbody
  obtain ⟨huncut, hlevel⟩ :=
    (level_fresh _).inner lineFree_postgres hscript.left (inner_functionLexemes t)
  obtain ⟨cs, hfirst⟩ : ∃ cs, functionText t = 'C' :: cs := ⟨_, rfl⟩
  have htrim : trimEnd (functionText t) = functionText t := by
    have htail : textOf functionTail = " LANGUAGE plpgsq".toList ++ ['l'] := by decide
    rw [functionText, htail, ← List.cons_append, ← List.cons_append, ← List.append_assoc,
      ← List.cons_append, ← List.cons_append, ← List.append_assoc, trimEnd_concat (by decide)]
  exact split_of_through hscript ⟨huncut, hlevel.cut⟩ (textOf_functionLexemes t) hfirst (by decide) htrim

/-! ### The trigger -/

theorem row_functionCall (hname : PlainName t.name) : Row Dialect.postgres.rules (functionCall t) := by
  have hclose : Row Dialect.postgres.rules [punct '(', punct ')'] :=
    ((row_nil _).mark (by decide) (by decide)).mark (by decide) (by decide)
  have hspell : Row Dialect.postgres.rules (spell ["EXECUTE", "FUNCTION"]) := row_spell (by decide +kernel)
  have hcalled := row_name (plainName_function hname).readable hclose (led_mark (by decide) _)
  exact hspell.append hcalled.blank (led_blank _)

theorem scanned_callingTrigger (hname : PlainName t.name) (htable : PlainName t.table) :
    Scanned .postgres (Atom.create (callingTrigger t)) := by
  have hcall := row_functionCall hname
  have hparts : Atom.create (callingTrigger t) =
      Atom.create (triggerLine .postgres t) ++ blank '\n' :: functionCall t := rfl
  have happart : Apart Dialect.postgres.rules (blank '\n' :: functionCall t) :=
    hcall.apart.blank (by decide)
  have hinner : ∀ l ∈ lexemesOf (blank '\n' :: functionCall t), l.Inner := by
    have hsplit : lexemesOf (blank '\n' :: functionCall t) =
        lexemesOf (blank '\n' :: spell ["EXECUTE", "FUNCTION"] ++ [blank ' ']) ++
          (lexemesOf [Atom.name .postgres t.function] ++ lexemesOf [punct '(', punct ')']) := by
      rw [← lexemesOf_append, ← lexemesOf_append]
      rfl
    rw [hsplit, List.forall_mem_append, List.forall_mem_append]
    exact ⟨by decide, inner_function t, by decide⟩
  have hlevel : Through (Level Dialect.postgres.rules 0) (fresh Dialect.postgres.rules)
      (lexemesOf (Atom.create (callingTrigger t))) := by
    rw [hparts, lexemesOf_append]
    refine (heading_triggerLine lineFree_postgres hname.readable htable.readable).append fun s hs => ?_
    exact hs.1.level.inner lineFree_postgres happart.script hinner
  refine ⟨?_, hlevel.1, hlevel.2.cut⟩
  rw [hparts]
  exact (row_triggerLine hname.readable htable.readable).apart.append happart (led_newline _)

theorem firm_functionCall (t : Trigger) : Firm (functionCall t) := by
  have hclose : Firm [punct '(', punct ')'] := ⟨['('], ')', rfl, by decide⟩
  exact hclose.append (spell ["EXECUTE", "FUNCTION"] ++ [blank ' ', Atom.name .postgres t.function])

theorem firm_callingTrigger (t : Trigger) : Firm (Atom.create (callingTrigger t)) := by
  have hparts : Atom.create (callingTrigger t) =
      Atom.create (triggerLine .postgres t) ++ [blank '\n'] ++ functionCall t :=
    List.append_cons (Atom.create (triggerLine .postgres t)) _ _
  rw [hparts]
  exact (firm_functionCall t).append _

theorem exists_functionCall (t : Trigger) : ∃ cs, Atom.textOf (functionCall t) = 'E' :: cs := ⟨_, rfl⟩

theorem trim_functionCall (t : Trigger) :
    trim (Atom.textOf (functionCall t)) = Atom.textOf (functionCall t) := by
  have htrim := (firm_functionCall t).trimEnd
  obtain ⟨cs, hfirst⟩ := exists_functionCall t
  rw [hfirst] at htrim ⊢
  have hstart : trimStart ('E' :: cs) = 'E' :: cs := List.dropWhile_cons_of_neg (by decide)
  rw [trim, hstart, htrim]

/-- The trigger is read back with the call as its body. -/
theorem ofStatement_callingTrigger (hname : PlainName t.name) (htable : PlainName t.table)
    (hevents : t.events ≠ []) (n : Nat) :
    ofStatement .postgres ⟨n, textOf (Atom.create (callingTrigger t))⟩ =
      .ok { triggers := [{ t with body := String.ofList (Atom.textOf (functionCall t)) }] } := by
  have hbody : ∃ ts, Lexer.tokensFrom Dialect.postgres.rules
      (width (textOf (Atom.create (triggerLine .postgres t)) ++ ['\n'])) (textOf (functionCall t)) =
        ⟨.word, "EXECUTE".toList, width (textOf (Atom.create (triggerLine .postgres t)) ++ ['\n'])⟩ :: ts :=
    ⟨_, (row_functionCall hname).apart.tokensFrom _⟩
  obtain ⟨ts, hbody⟩ := hbody
  have hends : ∀ n, EndsHead ⟨.word, "EXECUTE".toList, n⟩ := fun _ =>
    ⟨rfl, (by decide : "EXECUTE" ∉ clauseWords)⟩
  have hstart := triggerStart?_triggerLine hname.readable htable.readable hevents hbody (hends _)
  have hparts : Atom.textOf (Atom.create (callingTrigger t)) =
      Atom.textOf (Atom.create (triggerLine .postgres t)) ++ ['\n'] ++ Atom.textOf (functionCall t) := by
    rw [textOf_callingTrigger, List.append_cons]
  have hrest : trim (dropBytes (width (Atom.textOf (Atom.create (triggerLine .postgres t)) ++ ['\n']))
      (Atom.textOf (Atom.create (callingTrigger t)))) = Atom.textOf (functionCall t) := by
    rw [hparts, dropBytes_width_append, trim_functionCall]
  have hne : Atom.textOf (functionCall t) ≠ [] := by
    obtain ⟨cs, hfirst⟩ := exists_functionCall t
    simp [hfirst]
  rw [← textOf_callingTrigger] at hstart
  have hread := ofStatement_of_triggerStart?
    (s := ⟨n, Atom.textOf (Atom.create (callingTrigger t))⟩) hstart (by rwa [hrest])
  rw [hread, hrest]

/-! ### Tokens -/

/-- What stands between `$$` and `$$`, with them. -/
theorem takeToken_dollars {rules : LexicalRules} (hrules : rules.dollarQuotes = true) {inner : List Char}
    (hinner : ¬ ['$', '$'] <:+: inner ++ ['$']) (rest : List Char) :
    Lexer.takeToken rules '$' ('$' :: (inner ++ '$' :: '$' :: rest)) =
      (.dollarString, (Lexeme.dollar [] inner).text, rest) := by
  have hbreak : breakOn ['$', '$'] (inner ++ '$' :: '$' :: rest) = some (inner, rest) := by
    have hfound := breakOn_of_not_infix (by simp) hinner rest
    rwa [List.append_assoc] at hfound
  have htake : Lexer.takeDollar? ('$' :: '$' :: (inner ++ '$' :: '$' :: rest)) =
      (breakOn ['$', '$'] (inner ++ '$' :: '$' :: rest)).map fun found =>
        (['$', '$'] ++ found.1 ++ ['$', '$'], found.2) := rfl
  have htext : (Lexeme.dollar [] inner).text = ['$', '$'] ++ inner ++ ['$', '$'] := rfl
  rw [Lexer.takeToken, Lexer.readers, if_pos hrules, List.append_assoc, List.append_assoc,
    List.singleton_append, Lexer.firstOf, htake, hbreak, htext]
  rfl

theorem kind_of_mem_place {as : List Atom} {n : Nat} {u : Token} (h : u ∈ place n as) :
    u.kind ≠ .dollarString := by
  induction as generalizing n with
  | nil => exact absurd h List.not_mem_nil
  | cons a as ih =>
    rw [place] at h
    rcases List.mem_append.1 h with h | h
    · obtain ⟨kind, hkind, rfl⟩ := Option.map_eq_some_iff.1 (Option.mem_toList.1 h)
      dsimp only
      rintro rfl
      cases a with
      | quoted opening =>
        have hstring := Option.some.inj hkind
        split at hstring
        all_goals exact absurd hstring (by simp)
      | _ => exact absurd hkind (by simp [kind?])
    · exact ih h

/-- The body is the only dollar-quoted text of the function. -/
theorem dollarStrings_functionText (hname : PlainName t.name) (hbody : ¬ ['$', '$'] <:+: t.trimmed) :
    ((tokenize .postgres (functionText t)).filter (·.kind = .dollarString)).map (·.text) =
      [(Lexeme.dollar [] t.quotedBody).text] := by
  have hnone : ∀ (n : Nat) (as : List Atom), (place n as).filter (·.kind = .dollarString) = [] := by
    intro n as
    rw [List.filter_eq_nil_iff]
    intro u hu
    simpa using kind_of_mem_place hu
  have hlast : ∀ a ∈ (functionHead t).getLast?,
      ∀ c ∈ ('$' :: '$' :: (t.quotedBody ++ '$' :: '$' :: Atom.textOf functionTail)).head?,
        a.endsAt c = true := by
    intro a ha c _
    rw [functionHead, List.getLast?_concat] at ha
    obtain rfl := Option.some.inj ha
    rfl
  have hinner : ¬ ['$', '$'] <:+: t.quotedBody ++ ['$'] := by rwa [infix_quotedBody_iff]
  have htoken : Lexer.takeToken Dialect.postgres.rules '$' _ = _ :=
    takeToken_dollars rfl hinner (Atom.textOf functionTail)
  have hsegment := takeSegment_of_token (by decide) (takeComment?_of (by simp) (by simp) (by simp)) htoken
  rw [tokenize, functionText, (apart_functionHead hname).tokensFrom_append hlast, Lexer.tokensFrom_cons,
    hsegment]
  dsimp only
  rw [row_functionTail.apart.tokensFrom, List.filter_append, hnone, List.filter_append, hnone]
  rfl

/-- A dollar-quoted text has no delimiter inside. -/
theorem not_infix_of_dollarString {n : Nat} {cs inner : List Char} {u : Token}
    {rules : LexicalRules} (hu : u ∈ Lexer.tokensFrom rules n cs) (hkind : u.kind = .dollarString)
    (htext : u.text = (Lexeme.dollar [] inner).text) : ¬ ['$', '$'] <:+: inner ++ ['$'] := by
  obtain ⟨-, c, more, rest, -, -, -, -, htaken⟩ := Lexer.exists_of_mem_tokensFrom hu
  have hread := read rules c more
  rw [htaken, hkind, htext] at hread
  generalize hwhole : (Lexeme.dollar [] inner).text = whole at hread
  cases hread with
  | @dollar tag inner' _ _ _ htag hinner _ =>
    obtain rfl : tag = [] := by
      cases tag with
      | nil => rfl
      | cons d tag =>
        obtain ⟨rfl, -⟩ := List.cons.inj (List.cons.inj hwhole).2
        exact absurd List.mem_cons_self htag
    have hsame : inner ++ ['$', '$'] = inner' ++ ['$', '$'] :=
      (List.cons.inj (List.cons.inj hwhole).2).2
    obtain rfl := List.append_cancel_right hsame
    exact not_infix_of_breakOn (by simp) hinner
  | quoted _ hstring _ => rcases hstring with h | h <;> exact absurd h (by simp)

/-! ### The function and the trigger -/

theorem split_postgresTrigger (hname : PlainName t.name) (htable : PlainName t.table)
    (hexecute : startsWith "EXECUTE " t.trimmed = false) (hbody : ¬ ['$', '$'] <:+: t.trimmed) :
    ∃ n, split Dialect.postgres.rules ((Style.of .postgres).createTrigger t).toList =
      .ok [⟨0, functionText t⟩, ⟨n, Atom.textOf (Atom.create (callingTrigger t))⟩] := by
  obtain ⟨hbegins, hsplit⟩ := split_functionText hname hbody
  have hfound := Except.ok.inj ((split_of_begins hbegins).symm.trans hsplit)
  have htrigger := split_statementText (scanned_callingTrigger hname htable) (firm_callingTrigger t) 2
  refine ⟨width (functionText t ++ [';']) + width (List.replicate 2 '\n'), ?_⟩
  rw [toList_postgresTrigger hexecute, split_append (.inl lineFree_postgres) hbegins
    (.inl (joined_of_lineFree lineFree_postgres _ _)), hfound, htrigger]
  rfl

/-- The text is a function with the body whole between `$$` and `$$`, and the trigger. -/
def WrapsBody (t : Trigger) : Prop :=
  ∃ function trigger : Statement,
    split Dialect.postgres.rules ((Style.of .postgres).createTrigger t).toList =
      .ok [function, trigger] ∧
    ((tokenize .postgres function.text).filter (·.kind = .dollarString)).map (·.text) =
      ["$$\n".toList ++ (terminated (String.ofList (trim t.body.toList))).toList ++ "\n$$".toList] ∧
    ∃ body, ofStatement .postgres trigger = .ok { triggers := [{ t with body }] }

/-- A body that calls no function is wrapped in one exactly when it has no `$$` itself. -/
theorem createTrigger_wraps_iff (t : Trigger) (hname : PlainName t.name) (htable : PlainName t.table)
    (hevents : t.events ≠ []) (hexecute : startsWith "EXECUTE " (trim t.body.toList) = false) :
    WrapsBody t ↔ ¬ "$$".toList <:+: trim t.body.toList := by
  have hneedle : "$$".toList <:+: trim t.body.toList ↔ ['$', '$'] <:+: t.quotedBody ++ ['$'] :=
    (infix_quotedBody_iff t).symm
  have hquoted : "$$\n".toList ++ (terminated (String.ofList (trim t.body.toList))).toList ++
      "\n$$".toList = (Lexeme.dollar [] t.quotedBody).text := by
    simp [Lexeme.text, Trigger.quotedBody, Trigger.trimmed]
  unfold WrapsBody
  rw [hquoted, hneedle]
  constructor
  · rintro ⟨function, -, -, htokens, -⟩
    obtain ⟨u, hu, htext⟩ := List.mem_map.1 (htokens ▸ List.mem_singleton_self _)
    obtain ⟨hu, hkind⟩ := List.mem_filter.1 hu
    exact not_infix_of_dollarString hu (of_decide_eq_true hkind) htext
  · intro hbody
    rw [infix_quotedBody_iff] at hbody
    obtain ⟨n, hsplit⟩ := split_postgresTrigger hname htable hexecute hbody
    exact ⟨_, _, hsplit, dollarStrings_functionText hname hbody, _,
      ofStatement_callingTrigger hname htable hevents n⟩

/-- Writes to a log. -/
def logging (body : String) : Trigger where
  name := "log rows"
  table := "order"
  timing := .after
  events := [.insert, .update]
  body

/-- A body with `;` and quotes is wrapped, and one with `$$` in a name is not. -/
theorem createTrigger_wraps_iff_two_bodies :
    WrapsBody (logging "BEGIN\n  INSERT INTO log VALUES ('$a$;' || x$);\nEND;") ∧
      ¬ WrapsBody (logging "INSERT INTO log$$a VALUES (1)") :=
  ⟨(createTrigger_wraps_iff _ (by decide) (by decide) (by decide) (by decide)).2 (by decide +kernel),
    fun h => (createTrigger_wraps_iff _ (by decide) (by decide) (by decide) (by decide)).1 h
      (by decide +kernel)⟩

end DdlBridge
