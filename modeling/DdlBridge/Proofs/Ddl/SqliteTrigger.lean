import DdlBridge.Proofs.Ddl.TriggerHead
import DdlBridge.Proofs.Grammar.Adding
import DdlBridge.Proofs.Statement.PlainText

/-!
# Triggers of SQLite

A trigger becomes one for each of its events, with the body between `BEGIN` and `END`. A scanner that
has read the `BEGIN` reads a plain body to the `END` (`through_triggerLexemes`), so no `;` in it ends a
statement and all of the triggers come back (`parse_sqliteTrigger`).
-/

namespace DdlBridge

open Text Atom Ddl

variable {t : Trigger} {e : Event}

/-! ### The text -/

/-- The trigger for one of the events. -/
def Trigger.forEvent (t : Trigger) (e : Event) : Trigger :=
  { t with name := Style.eventName t e, events := [e], forEachRow := true }

/-- What stands between `BEGIN` and the line of the `END`. -/
def Trigger.inner (t : Trigger) : List Char :=
  '\n' :: (List.replicate 4 ' ' ++ (terminated (String.ofList t.trimmed)).toList)

/-- The body of the trigger that is written. -/
def Trigger.block (t : Trigger) : List Char :=
  ['B', 'E', 'G', 'I', 'N'] ++ (t.inner ++ ['\n', 'E', 'N', 'D'])

/-- The trigger for one of the events, without the `;` that ends it. -/
def eventText (t : Trigger) (e : Event) : List Char :=
  textOf (Atom.create (triggerLine .sqlite (t.forEvent e))) ++ '\n' :: t.block

/-- The triggers for more events. -/
def nextEvents (t : Trigger) (es : List Event) : List Char :=
  es.flatMap fun e => '\n' :: '\n' :: (eventText t e ++ [';'])

theorem eventText_eq (t : Trigger) (e : Event) : eventText t e ++ [';'] =
    ("" ++ "CREATE TRIGGER " ++ (Style.of .sqlite).quote (Style.eventName t e) ++ " " ++ t.timing.text ++
      " " ++ e.text ++ " ON " ++ (Style.of .sqlite).quote t.table ++ " FOR EACH ROW\n" ++
      ("BEGIN\n    " ++ terminated (String.ofList t.trimmed) ++ "\nEND;")).toList := by
  have heach : " FOR EACH ROW\n".toList = " FOR EACH ".toList ++ ("ROW".toList ++ ['\n']) := by decide
  have hbegin : "BEGIN\n    ".toList = ['B', 'E', 'G', 'I', 'N'] ++ '\n' :: List.replicate 4 ' ' := by decide
  have hend : "\nEND;".toList = ['\n', 'E', 'N', 'D', ';'] := by decide
  rw [eventText, textOf_triggerLine, Trigger.block, Trigger.inner]
  simp only [String.toList_append]
  rw [heach, hbegin, hend]
  simp only [List.append_assoc, List.cons_append, List.nil_append]
  rfl

theorem toList_sqliteTrigger (hbegin : startsWith "BEGIN" t.trimmed = false) {es : List Event}
    (hevents : t.events = e :: es) :
    ((Style.of .sqlite).createTrigger t).toList = eventText t e ++ [';'] ++ nextEvents t es := by
  have hblank : "\n\n".toList = ['\n', '\n'] := rfl
  show ((Style.of .sqlite).sqliteTrigger t).toList = _
  unfold Style.sqliteTrigger Style.perEvent
  dsimp only
  rw [if_neg (by rw [← Trigger.trimmed, hbegin]; simp), hevents, List.map_cons, toList_joinWith,
    List.flatMap_map, hblank, nextEvents, eventText_eq]
  refine congrArg _ (congrArg (es.flatMap ·) (funext fun e => ?_))
  rw [eventText_eq]
  rfl

/-! ### Statements -/

open Statement Scanner Grammar

theorem lineFree_sqlite : LineFree Dialect.sqlite.rules := ⟨rfl, rfl⟩

theorem plain_sqlite : Plain Dialect.sqlite.rules := ⟨rfl, rfl, rfl⟩

theorem plainName_forEvent (hname : PlainName t.name) (e : Event) : PlainName (t.forEvent e).name := by
  show PlainName (Style.eventName t e)
  unfold Style.eventName
  split
  case isTrue => exact (hname.append (by decide)).append (by cases e <;> decide)
  case isFalse => exact hname

theorem row_begin : Row Dialect.sqlite.rules (spell ["BEGIN"]) := row_spell (by decide +kernel)

/-- A plain body stays plain between `BEGIN` and `END`. -/
theorem idles_inner (h : Idles Dialect.sqlite.rules t.trimmed) : Idles Dialect.sqlite.rules t.inner := by
  have hend : Idles Dialect.sqlite.rules (if t.trimmed.getLast? = some ';' then [] else [';']) := by
    split
    · exact ⟨[], .nil, rfl, by simp⟩
    · exact ⟨[.punct ';'], script_of_isScript rfl, rfl, by simp [idle_punct plain_sqlite]⟩
  have hnext : ∀ c ∈ (if t.trimmed.getLast? = some ';' then [] else [';']).head?, c ∈ delimiters := by
    intro c hc
    split at hc
    case isTrue => cases hc
    case isFalse =>
      obtain rfl := Option.some.inj hc
      decide
  rw [Trigger.inner, toList_terminated_trimmed]
  have hbody := h.append hend hnext
  exact ((((hbody.blank (by decide)).blank (by decide)).blank (by decide)).blank (by decide)).blank
    (by decide)

/-- The head of a trigger and its `BEGIN`. -/
def Atom.sqliteHead (t : Trigger) (e : Event) : List Atom :=
  Atom.create (triggerLine .sqlite (t.forEvent e)) ++ [blank '\n'] ++ [Atom.word "BEGIN".toList]

/-- What a scanner reads a trigger as. -/
def triggerLexemes (t : Trigger) (e : Event) (ls : List Lexeme) : List Lexeme :=
  lexemesOf (Atom.sqliteHead t e) ++ (ls ++ [Lexeme.blank '\n', Lexeme.word "END".toList])

theorem textOf_triggerLexemes {ls : List Lexeme} (htext : Statement.textOf ls = t.inner) :
    Statement.textOf (triggerLexemes t e ls) = eventText t e := by
  have hparts : Statement.textOf (triggerLexemes t e ls) =
      Statement.textOf (lexemesOf (Atom.sqliteHead t e)) ++
        (Statement.textOf ls ++ ['\n', 'E', 'N', 'D']) := by
    rw [triggerLexemes, Statement.textOf, List.flatMap_append, List.flatMap_append]
    rfl
  rw [hparts, htext, textOf_lexemesOf, Atom.sqliteHead, Atom.textOf_append, Atom.textOf_append,
    eventText, Trigger.block, List.append_assoc, List.append_assoc]
  rfl

theorem apart_sqliteHead (hname : PlainName t.name) (htable : PlainName t.table) :
    Apart Dialect.sqlite.rules (Atom.sqliteHead t e) := by
  have hline := row_triggerLine (d := .sqlite) (t := t.forEvent e) (plainName_forEvent hname e).readable
    htable.readable
  have happart := hline.apart.append (row_begin.apart.blank (c := '\n') (by decide)) (led_newline _)
  rw [Atom.sqliteHead, List.append_assoc]
  exact happart

theorem script_triggerLexemes (hname : PlainName t.name) (htable : PlainName t.table)
    {ls : List Lexeme} (hscript : Script Dialect.sqlite.rules ls)
    (htext : Statement.textOf ls = t.inner) (hidle : ∀ l ∈ ls, l.Idle Dialect.sqlite.rules) :
    Script Dialect.sqlite.rules (triggerLexemes t e ls ++ [.punct ';']) := by
  have hend : Script Dialect.sqlite.rules [.blank '\n', .word "END".toList, .punct ';'] :=
    script_of_isScript rfl
  have hrest : Script Dialect.sqlite.rules (ls ++ [.blank '\n', .word "END".toList, .punct ';']) := by
    refine script_append hscript hend fun l hl c hc => ?_
    obtain rfl := Option.some.inj hc
    exact (hidle l (List.mem_of_getLast? hl)).ends _ (by decide)
  have hparts : triggerLexemes t e ls ++ [.punct ';'] = lexemesOf (Atom.sqliteHead t e) ++
      (ls ++ [.blank '\n', .word "END".toList, .punct ';']) := by
    rw [triggerLexemes, List.append_assoc, List.append_assoc]
    rfl
  rw [hparts]
  refine script_append (apart_sqliteHead hname htable).script hrest fun l hl c hc => ?_
  have hbegin : lexemesOf [Atom.word "BEGIN".toList] = [.word "BEGIN".toList] := rfl
  rw [Atom.sqliteHead, lexemesOf_append, hbegin, List.getLast?_concat] at hl
  obtain rfl := Option.some.inj hl
  rw [Statement.textOf, List.flatMap_append, ← Statement.textOf, htext] at hc
  obtain rfl := Option.some.inj hc
  rfl

/-- A plain body is read to the `END`, and only the `;` behind that ends the statement. -/
theorem through_triggerLexemes (hname : PlainName t.name) (htable : PlainName t.table)
    {ls : List Lexeme} (hscript : Script Dialect.sqlite.rules ls)
    (hidle : ∀ l ∈ ls, l.Idle Dialect.sqlite.rules) :
    Through (fun s => (take s (.punct ';')).2 = true) (fresh Dialect.sqlite.rules)
      (triggerLexemes t e ls) := by
  have hhead := heading_triggerLine (t := t.forEvent e) lineFree_sqlite
    (plainName_forEvent hname e).readable htable.readable
  have hparts : triggerLexemes t e ls =
      lexemesOf (Atom.create (triggerLine .sqlite (t.forEvent e))) ++ ([.blank '\n'] ++
        ([.word "BEGIN".toList] ++ (ls ++ ([.blank '\n'] ++ [.word "END".toList])))) := by
    rw [triggerLexemes, Atom.sqliteHead, lexemesOf_append, lexemesOf_append, List.append_assoc,
      List.append_assoc]
    rfl
  have hblank : Script Dialect.sqlite.rules [.blank '\n'] := script_of_isScript rfl
  rw [hparts]
  refine hhead.append fun s hs => ?_
  refine (hs.1.blank lineFree_sqlite (by decide) hs.2).append fun s hs => ?_
  have hopens : (s.parens == 0 && admits s.previous) = true := by rw [hs.1.parens, hs.2]; rfl
  refine (hs.1.level.enter lineFree_sqlite hs.1.started hopens Lexeme.keyword_begin).append fun s hs => ?_
  refine (hs.run lineFree_sqlite hscript.formed (fun l hl => (hidle l hl).word) (.inl (by simp))).append
    fun s hs => ?_
  refine (hs.run lineFree_sqlite hblank.formed (by decide) (.inl (by simp))).append fun s hs => ?_
  obtain ⟨huncut, hcut⟩ := hs.leave lineFree_sqlite Lexeme.keyword_end
  exact ⟨by rw [takeAll, huncut]; rfl, hcut⟩

theorem exists_block (t : Trigger) : ∃ cs, t.block = 'B' :: cs := ⟨_, rfl⟩

theorem trim_block (t : Trigger) : trim t.block = t.block := by
  have hend : ['\n', 'E', 'N', 'D'] = ['\n', 'E', 'N'] ++ ['D'] := rfl
  have htrim : trimEnd t.block = t.block := by
    rw [Trigger.block, hend, ← List.append_assoc, ← List.append_assoc, trimEnd_concat (by decide)]
  obtain ⟨cs, hfirst⟩ := exists_block t
  have hstart : trimStart t.block = t.block := by
    rw [hfirst]
    exact List.dropWhile_cons_of_neg (by decide)
  rw [trim, hstart, htrim]

theorem trimEnd_eventText (t : Trigger) (e : Event) : trimEnd (eventText t e) = eventText t e := by
  have htrim : trimEnd t.block = t.block := by rw [← trim_block, trim, trimEnd_trimEnd]
  obtain ⟨cs, hfirst⟩ := exists_block t
  rw [hfirst] at htrim
  rw [eventText, hfirst, List.append_cons, trimEnd_append_of_not_blank (by decide), htrim]

/-- Each of the triggers is one statement. -/
theorem split_eventText (hname : PlainName t.name) (htable : PlainName t.table)
    (hbody : Idles Dialect.sqlite.rules t.trimmed) (e : Event) :
    Begins Dialect.sqlite.rules (eventText t e ++ [';']) ∧
      split Dialect.sqlite.rules (eventText t e ++ [';']) = .ok [⟨0, eventText t e⟩] := by
  obtain ⟨ls, hscript, htext, hidle⟩ := idles_inner hbody
  obtain ⟨cs, hfirst⟩ : ∃ cs, eventText t e = 'C' :: cs := ⟨_, rfl⟩
  exact split_of_through (script_triggerLexemes hname htable hscript htext hidle)
    (through_triggerLexemes hname htable hscript hidle) (textOf_triggerLexemes htext) hfirst
    (by decide) (trimEnd_eventText t e)

/-! ### The triggers read back -/

/-- Each of the triggers is read back with the block as its body. -/
theorem ofStatement_eventText (hname : PlainName t.name) (htable : PlainName t.table) (e : Event)
    (n : Nat) : ofStatement .sqlite ⟨n, eventText t e⟩ =
      .ok { triggers := [{ t.forEvent e with body := String.ofList t.block }] } := by
  have hwords : Apart Dialect.sqlite.rules [Atom.word "BEGIN".toList, blank '\n'] :=
    row_begin.apart.append (Apart.nil.blank (by decide))
      (led_newline [])
  have hblock : t.block = Atom.textOf [Atom.word "BEGIN".toList, blank '\n'] ++
      (List.replicate 4 ' ' ++ (terminated (String.ofList t.trimmed)).toList ++ ['\n', 'E', 'N', 'D']) :=
    rfl
  have hbody : ∀ n, ∃ ts, Lexer.tokensFrom Dialect.sqlite.rules n t.block =
      ⟨.word, "BEGIN".toList, n⟩ :: ts := by
    intro n
    rw [hblock, hwords.tokensFrom_append fun a ha c _ => by
      obtain rfl := Option.some.inj ha
      rfl]
    exact ⟨_, rfl⟩
  obtain ⟨ts, hbody⟩ := hbody
    (width (Atom.textOf (Atom.create (triggerLine .sqlite (t.forEvent e))) ++ ['\n']))
  have hstarts : ∀ n, StartsBody ⟨.word, "BEGIN".toList, n⟩ := fun _ => .inl rfl
  have hstart := triggerStart?_triggerLine (t := t.forEvent e) (plainName_forEvent hname e).readable
    htable.readable (by simp [Trigger.forEvent]) hbody (hstarts _).endsHead
  have hparts : eventText t e =
      Atom.textOf (Atom.create (triggerLine .sqlite (t.forEvent e))) ++ ['\n'] ++ t.block :=
    List.append_cons _ _ _
  have hrest : trim (dropBytes (width (Atom.textOf (Atom.create (triggerLine .sqlite (t.forEvent e))) ++
      ['\n'])) (eventText t e)) = t.block := by
    rw [hparts, dropBytes_width_append, trim_block]
  have hne : t.block ≠ [] := by
    obtain ⟨cs, hfirst⟩ := exists_block t
    simp [hfirst]
  have hread := ofStatement_of_triggerStart? (s := ⟨n, eventText t e⟩) hstart (by rwa [hrest])
  rw [hread, hrest]

/-- A script that starts with a trigger for an event adds it. -/
theorem adds_eventText (hname : PlainName t.name) (htable : PlainName t.table)
    (hbody : Idles Dialect.sqlite.rules t.trimmed) {rest : List Char} {schema : Schema}
    (h : Adds .sqlite rest schema) (e : Event) : Adds .sqlite (eventText t e ++ [';'] ++ rest)
      (({ triggers := [{ t.forEvent e with body := String.ofList t.block }] } : Schema).append schema) := by
  obtain ⟨hbegins, hsplit⟩ := split_eventText hname htable hbody e
  refine (adds_append_iff hbegins (.inl (joined_of_lineFree lineFree_sqlite _ _))).2 ⟨_, schema, ?_, h, rfl⟩
  exact (adds_singleton_iff hsplit).2 ⟨_, ofStatement_eventText hname htable e 0, rfl⟩

theorem adds_nextEvents (hname : PlainName t.name) (htable : PlainName t.table)
    (hbody : Idles Dialect.sqlite.rules t.trimmed) (es : List Event) :
    Adds .sqlite (nextEvents t es)
      { triggers := es.map fun e => { t.forEvent e with body := String.ofList t.block } } := by
  induction es with
  | nil => exact (adds_iff_of_empty rfl).2 rfl
  | cons e es ih =>
    have hnext : nextEvents t (e :: es) = '\n' :: '\n' :: (eventText t e ++ [';'] ++ nextEvents t es) := by
      rw [nextEvents, List.flatMap_cons]
      rfl
    rw [hnext, adds_newline_iff, adds_newline_iff]
    exact adds_eventText hname htable hbody ih e

theorem eventName_eq (hevents : t.events ≠ []) (e : Event) : Style.eventName t e =
    if t.events.length = 1 then t.name else t.name ++ "_" ++ String.ofList (lower e.text.toList) := by
  have hpos := List.length_pos_iff.2 hevents
  unfold Style.eventName
  split
  case isTrue hmany => rw [if_neg (by omega)]
  case isFalse hone => rw [if_pos (by omega)]

theorem ofList_block (t : Trigger) : String.ofList t.block =
    "BEGIN\n    " ++ terminated (String.ofList t.trimmed) ++ "\nEND" := by
  have hbegin : "BEGIN\n    ".toList = ['B', 'E', 'G', 'I', 'N'] ++ '\n' :: List.replicate 4 ' ' := by decide
  rw [← String.toList_inj, String.toList_ofList, Trigger.block, Trigger.inner, String.toList_append,
    String.toList_append, hbegin]
  simp only [List.append_assoc, List.cons_append]
  rfl

/-- A trigger with a plain body becomes one trigger for each event, with the body between `BEGIN` and
`END`. A body is not plain where the lexer takes a `--` or `/*` as punctuation, since a scanner reads a
comment there. -/
theorem parse_sqliteTrigger (t : Trigger) (hname : PlainName t.name) (htable : PlainName t.table)
    (hevents : t.events ≠ []) (hbegin : startsWith "BEGIN" (trim t.body.toList) = false)
    (hcomments : comments .sqlite (trim t.body.toList) = [])
    (hopeners : ∀ u ∈ tokenize .sqlite (trim t.body.toList),
      ¬ Dangling Dialect.sqlite.rules (trim t.body.toList) u)
    (hwords : ∀ u ∈ tokenize .sqlite (trim t.body.toList), u.keyword ∉ ["BEGIN", "CASE", "END"]) :
    parse .sqlite ((Style.of .sqlite).createTrigger t) = .ok { triggers := t.events.map fun e =>
      { name := if t.events.length = 1 then t.name
          else t.name ++ "_" ++ String.ofList (lower e.text.toList)
        table := t.table
        timing := t.timing
        events := [e]
        forEachRow := true
        body := "BEGIN\n    " ++ terminated (String.ofList (trim t.body.toList)) ++ "\nEND" } } := by
  have hclean : Clean Dialect.sqlite.rules t.trimmed := by
    refine clean_of_tokens plain_sqlite 0 t.trimmed [] rfl (fun seg hseg hkind => ?_) hopeners hwords
    have hmem : seg ∈ comments .sqlite t.trimmed := List.mem_filter.2 ⟨hseg, by simpa using hkind⟩
    rw [Trigger.trimmed, hcomments] at hmem
    exact absurd hmem List.not_mem_nil
  have hidles := (hclean.idles plain_sqlite).1
  obtain ⟨e, es, hes⟩ := List.exists_cons_of_ne_nil hevents
  have hadds := adds_eventText hname htable hidles (adds_nextEvents hname htable hidles es) e
  rw [← toList_sqliteTrigger hbegin hes] at hadds
  have hscript : (trim ((Style.of .sqlite).createTrigger t).toList).isEmpty = false := by
    rw [toList_sqliteTrigger hbegin hes]
    exact isEmpty_trim_eq_false.2 ⟨'C', List.mem_cons_self, by decide⟩
  have hparse := (parseScript_eq_ok_iff hscript _).2 hadds
  have hall : ({ triggers := t.events.map fun e => { t.forEvent e with body := String.ofList t.block } } :
      Schema) = Schema.append { triggers := [{ t.forEvent e with body := String.ofList t.block }] }
        { triggers := es.map fun e => { t.forEvent e with body := String.ofList t.block } } := by
    rw [hes]
    rfl
  rw [← hall] at hparse
  simp only [Trigger.forEvent, eventName_eq hevents, ofList_block] at hparse
  exact hparse

/-- Keeps tables in step, in statements with quotes and with parentheses that match nothing. -/
def mirroring : Trigger where
  name := "mirror rows"
  table := "order"
  timing := .after
  events := [.update, .insert]
  body := " DELETE FROM a; x((')--' / 1.5e3); y('it''s' - [b;]; "

theorem parse_sqliteTrigger_mirroring :
    parse .sqlite ((Style.of .sqlite).createTrigger mirroring) = .ok
      { triggers := mirroring.events.map fun e => { mirroring with
        name := "mirror rows" ++ "_" ++ String.ofList (lower e.text.toList)
        events := [e]
        forEachRow := true
        body := "BEGIN\n    DELETE FROM a; x((')--' / 1.5e3); y('it''s' - [b;];\nEND" } } :=
  (parse_sqliteTrigger mirroring (by decide) (by decide) (by decide) (by decide +kernel)
    (by decide +kernel) (by decide +kernel) (by decide +kernel)).trans
      (congrArg Except.ok (by decide +kernel))

/-- A trigger with a body that is plain to the lexer: it has no comment, no open quote and no word of a
block. -/
structure Trigger.SeemsPlain (t : Trigger) : Prop where
  name : PlainName t.name
  table : PlainName t.table
  events : t.events ≠ []
  body : trim t.body.toList ≠ []
  begins : startsWith "BEGIN" (trim t.body.toList) = false
  uncommented : comments .sqlite (trim t.body.toList) = []
  unquoted : ∀ u ∈ tokenize .sqlite (trim t.body.toList),
    u.kind = .punct → u.text.any (opensQuote Dialect.sqlite.rules) = false
  words : ∀ u ∈ tokenize .sqlite (trim t.body.toList), u.keyword ∉ ["BEGIN", "CASE", "END"]

/-- Calls a function with an argument in dollar quotes, which are no quotes here. -/
def calling (argument : String) : Trigger where
  name := "t"
  table := "a"
  timing := .after
  events := [.insert]
  body := "EXECUTE FUNCTION f($$" ++ argument ++ "$$)"

/-- A scanner finds a comment that does not end in the first body, and one that hides the start of a
literal in the second. -/
theorem parse_sqliteTrigger_error_of_hidden :
    ((calling "/*").SeemsPlain ∧ parse .sqlite ((Style.of .sqlite).createTrigger (calling "/*")) =
      .error (.invalidInput "unterminated block comment at end of input")) ∧
    ((calling "--\r'\n'").SeemsPlain ∧
      parse .sqlite ((Style.of .sqlite).createTrigger (calling "--\r'\n'")) =
        .error (.invalidInput "unterminated quoted literal or identifier at end of input")) :=
  ⟨⟨⟨by decide, by decide, by decide, by decide +kernel, by decide +kernel, by decide +kernel,
      by decide +kernel, by decide +kernel⟩, by decide +kernel⟩,
    ⟨⟨by decide, by decide, by decide, by decide +kernel, by decide +kernel, by decide +kernel,
      by decide +kernel, by decide +kernel⟩, by decide +kernel⟩⟩

end DdlBridge
