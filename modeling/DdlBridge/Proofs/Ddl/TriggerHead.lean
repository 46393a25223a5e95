import DdlBridge.Ddl.Script
import DdlBridge.Proofs.Ddl.Scanning
import DdlBridge.Proofs.Ddl.Writing
import DdlBridge.Proofs.Grammar.Head
import DdlBridge.Proofs.Statement.Level
import DdlBridge.Proofs.Token.Junction

/-!
# Heads of triggers

Where lines end no statement, the head of a trigger stands on one line. A scanner that has read it
expects a block (`heading_triggerLine`), and the grammar reads it up to the body
(`triggerStart?_triggerLine`).
-/

namespace DdlBridge

open Text Atom Ddl

variable {d : Dialect} {t : Trigger}

/-! ### The text -/

/-- The body as it is written into another statement. -/
def Trigger.trimmed (t : Trigger) : List Char := trim t.body.toList

theorem toList_terminated_trimmed (t : Trigger) : (terminated (String.ofList t.trimmed)).toList =
    t.trimmed ++ if t.trimmed.getLast? = some ';' then [] else [';'] := by
  have htrim : trimEnd t.trimmed = t.trimmed := by
    rw [Trigger.trimmed, trim, Statement.trimEnd_trimEnd]
  rw [terminated, String.toList_ofList, htrim]
  split
  · rw [String.toList_ofList, List.append_nil]
  · rw [String.toList_append, String.toList_ofList]
    rfl

theorem textOf_timing (timing : Timing) : textOf (Atom.timing timing) = timing.text.toList := by
  cases timing <;> decide

theorem textOf_events (es : List Event) :
    textOf (Atom.events es) = (joinWith " OR " (es.map (·.text))).toList := by
  cases es with
  | nil => rfl
  | cons e es =>
    rw [Atom.events, textOf_cons, textOf_flatMap, List.map_cons, toList_joinWith, List.flatMap_map]
    refine congrArg (_ ++ es.flatMap ·) (funext fun e => ?_)
    rw [nextEvent, textOf_cons, textOf_cons, textOf_cons, textOf_singleton]
    rfl

theorem textOf_eventLine (d : Dialect) (t : Trigger) : textOf (Atom.eventLine d t) =
    (t.timing.text ++ " " ++ Style.eventList " OR " t ++ " ON " ++
      (Style.of d).quote t.table).toList := by
  have hon : textOf [blank ' ', word "ON".toList, blank ' ', Atom.name d t.table] =
      " ON ".toList ++ ((Style.of d).quote t.table).toList := by
    rw [textOf_cons, textOf_cons, textOf_cons, textOf_singleton, text_name]
    rfl
  rw [eventLine, textOf_append, textOf_cons, textOf_append, hon, textOf_timing, textOf_events]
  simp only [String.toList_append, List.append_assoc]
  rfl

theorem textOf_scope (each : Bool) :
    textOf (Atom.scope each) = ("FOR EACH " ++ if each then "ROW" else "STATEMENT").toList := by
  cases each <;> decide

theorem textOf_triggerLine (d : Dialect) (t : Trigger) :
    textOf (Atom.create (triggerLine d t)) = ("CREATE TRIGGER " ++ (Style.of d).quote t.name ++ " " ++
      t.timing.text ++ " " ++ Style.eventList " OR " t ++ " ON " ++ (Style.of d).quote t.table ++
      " FOR EACH " ++ (if t.forEachRow then "ROW" else "STATEMENT")).toList := by
  have hwords : "CREATE TRIGGER ".toList =
      textOf (Atom.create (spell ["TRIGGER"]) ++ [blank ' ']) := by decide
  have heach : " FOR EACH ".toList = ' ' :: "FOR EACH ".toList := rfl
  have hparts : Atom.create (triggerLine d t) = Atom.create (spell ["TRIGGER"]) ++ [blank ' '] ++
      (Atom.name d t.name :: blank ' ' ::
        (Atom.eventLine d t ++ blank ' ' :: Atom.scope t.forEachRow)) := rfl
  rw [hparts, textOf_append, ← hwords, textOf_cons, textOf_cons, textOf_append, textOf_cons,
    textOf_eventLine, textOf_scope, text_name]
  simp only [String.toList_append, heach, List.append_assoc]
  rfl

/-! ### Rows -/

open Statement Scanner Grammar

theorem row_timing (rules : LexicalRules) (timing : Timing) : Row rules (Atom.timing timing) := by
  cases timing <;> exact row_spell (by decide +kernel)

theorem isCalmWord_event (e : Event) : isCalmWord e.text.toList = true := by
  cases e <;> decide +kernel

theorem row_events (rules : LexicalRules) (es : List Event) : Row rules (Atom.events es) := by
  have hnext : ∀ e, Row rules (Atom.nextEvent e) := fun e =>
    (row_word (by decide +kernel)
      (row_word (isCalmWord_event e) (row_nil rules) led_nil).blank (led_blank _)).blank
  cases es with
  | nil => exact row_nil rules
  | cons e es =>
    exact row_word (isCalmWord_event e) (Row.flatMap fun e _ => ⟨hnext e, led_blank _⟩)
      (led_flatMap fun e _ => led_blank _)

theorem row_eventLine (htable : Readable t.table) : Row d.rules (Atom.eventLine d t) := by
  have hon : Row d.rules [blank ' ', word "ON".toList, blank ' ', Atom.name d t.table] :=
    (row_word (by decide +kernel) (row_name htable (row_nil _) led_nil).blank (led_blank _)).blank
  exact (row_timing _ _).append ((row_events _ _).append hon (led_blank _)).blank (led_blank _)

theorem row_scope (rules : LexicalRules) (each : Bool) : Row rules (Atom.scope each) := by
  cases each <;> exact row_spell (by decide +kernel)

theorem row_triggerLine (hname : Readable t.name) (htable : Readable t.table) :
    Row d.rules (Atom.create (triggerLine d t)) := by
  have hevents : Row d.rules (Atom.eventLine d t ++ blank ' ' :: Atom.scope t.forEachRow) :=
    (row_eventLine htable).append (row_scope _ _).blank (led_blank _)
  have hrest : Row d.rules (Atom.name d t.name :: blank ' ' ::
      (Atom.eventLine d t ++ blank ' ' :: Atom.scope t.forEachRow)) :=
    row_name hname hevents.blank (led_blank _)
  have hspell : Row d.rules (spell ["CREATE", "TRIGGER"]) := row_spell (by decide +kernel)
  exact hspell.append hrest.blank (led_blank _)

/-! ### Scanning -/

variable {s : Scanner}

/-- Where a block may not start, a name starts none. -/
theorem Statement.Heading.name (h : Heading d.rules s) (hfree : LineFree d.rules)
    (hprevious : admits s.previous = false) {name : String} (hname : Readable name) :
    Through (Heading d.rules) s (lexemesOf [Atom.name d name]) := by
  have hformed := (row_name (d := d) hname (row_nil _) led_nil).apart.script.formed
  unfold Atom.name at hformed ⊢
  split at hformed
  case isTrue hquoting =>
    rw [if_pos hquoting]
    exact h.run hfree hformed fun l hl => by rw [List.mem_singleton.1 hl]; rfl
  case isFalse hquoting =>
    rw [if_neg hquoting]
    rw [Bool.not_eq_true] at hquoting
    obtain ⟨-, -, -, -, -, hreserved⟩ := bare_of_not_needsQuoting hquoting (hname hquoting)
    refine h.step hfree (hformed _ List.mem_cons_self) (by simp) (fun _ => hprevious) ?_
    simp only [List.mem_cons, List.not_mem_nil, or_false, not_or, Lexeme.keyword, ← String.toList_inj,
      String.toList_ofList]
    exact ⟨upper_ne_of_not_isReserved hreserved (by decide) (by decide),
      upper_ne_of_not_isReserved hreserved (by decide) (by decide)⟩

/-- A scanner behind a word, with what it makes of a `BEGIN` there. -/
theorem Statement.Heading.word {rules : LexicalRules} (h : Heading rules s) (hfree : LineFree rules)
    {cs : List Char} (hformed : (Lexeme.word cs).Formed rules)
    (hquiet : (Lexeme.word cs).isQuiet = true) :
    Through (fun s => Heading rules s ∧ admits s.previous = decide (spoken cs ∉ nameWords)) s
      [.word cs] := by
  have hcs : cs ≠ [] := by
    rintro rfl
    cases hformed
  obtain ⟨huncut, hheading⟩ : Through (Heading rules) s [.word cs] := h.run hfree
    (fun l hl => List.mem_singleton.1 hl ▸ hformed) fun l hl => List.mem_singleton.1 hl ▸ hquiet
  refine ⟨huncut, hheading, ?_⟩
  show admits (take s (.word cs)).1.previous = _
  rw [previous_word h.level.settled hcs]
  rfl

theorem Statement.Heading.blank {rules : LexicalRules} (h : Heading rules s) (hfree : LineFree rules)
    {c : Char} (hc : c ∈ plainBlanks) {admitted : Bool} (hprevious : admits s.previous = admitted) :
    Through (fun s => Heading rules s ∧ admits s.previous = admitted) s [.blank c] := by
  obtain ⟨huncut, hheading⟩ : Through (Heading rules) s [.blank c] := h.run hfree
    (fun l hl => List.mem_singleton.1 hl ▸ .blank hc) fun l hl => List.mem_singleton.1 hl ▸ rfl
  refine ⟨huncut, hheading, ?_⟩
  show admits (take s (.blank c)).1.previous = _
  rwa [previous_blank (h.level.uncut hfree (.inr (by simp)))]

theorem heading_create (hfree : LineFree d.rules) :
    Through (fun s => Heading d.rules s ∧ admits s.previous = false) (fresh d.rules)
      (lexemesOf (Atom.create (spell ["TRIGGER"]))) := by
  have hall : ∀ d : Dialect, LineFree d.rules →
      let r := takeAll (fresh d.rules) (lexemesOf (Atom.create (spell ["TRIGGER"])))
      r.2 = false ∧ (r.1.region = .normal ∧ r.1.word = []) ∧ r.1.rules = d.rules ∧
        r.1.storedUnit = false ∧ r.1.depth = 0 ∧ r.1.pendingEnd = false ∧
        mayHoldBlock r.1.head = true ∧ 0 < r.1.words ∧ r.1.content = true ∧ r.1.parens = 0 ∧
        admits r.1.previous = false := by
    rintro (_ | _ | _ | _ | _) hfree
    case oracle => exact absurd hfree.1 (by decide)
    case sqlServer => exact absurd hfree.2 (by decide)
    all_goals decide +kernel
  obtain ⟨huncut, hsettled, hunder, hunit, hdepth, hpending, hhead, hwords, hcontent, hparens,
    hprevious⟩ := hall d hfree
  exact ⟨huncut, ⟨⟨⟨hsettled.1, hsettled.2⟩, hunder, hunit, hdepth, hpending⟩,
    ⟨hhead, hwords, hcontent⟩, hparens⟩, hprevious⟩

theorem quiet_timing (timing : Timing) : ∀ l ∈ lexemesOf (Atom.timing timing), l.isQuiet = true := by
  cases timing <;> decide

theorem quiet_events (es : List Event) : ∀ l ∈ lexemesOf (Atom.events es), l.isQuiet = true := by
  have hevent : ∀ e : Event, (Lexeme.word e.text.toList).isQuiet = true := by
    rintro (_ | _ | _) <;> decide
  have hnext : ∀ e : Event, ∀ l ∈ lexemesOf (Atom.nextEvent e), l.isQuiet = true := by
    rintro (_ | _ | _) <;> decide
  cases es with
  | nil => exact fun l hl => absurd hl List.not_mem_nil
  | cons e es =>
    rw [Atom.events, lexemesOf_cons]
    intro l hl
    rcases List.mem_append.1 hl with hl | hl
    · rw [List.mem_singleton.1 hl]
      exact hevent e
    · rw [lexemesOf, List.flatMap_assoc] at hl
      obtain ⟨e', -, hl⟩ := List.mem_flatMap.1 hl
      exact hnext e' l hl

theorem Statement.Heading.on {rules : LexicalRules} (h : Heading rules s) (hfree : LineFree rules) :
    Through (fun s => Heading rules s ∧ admits s.previous = false) s
      (lexemesOf [Atom.blank ' ', Atom.word "ON".toList, Atom.blank ' ']) := by
  have hon : (Lexeme.word "ON".toList).Formed rules :=
    Lexeme.formed_of_isFormed rfl
  refine (h.blank hfree (by decide) rfl).append fun s hs => ?_
  refine (hs.1.word hfree hon (by decide)).append fun s hs => ?_
  exact hs.1.blank hfree (by decide) hs.2

theorem Statement.Heading.scope {rules : LexicalRules} (h : Heading rules s) (hfree : LineFree rules)
    (each : Bool) : Through (fun s => Heading rules s ∧ admits s.previous = true) s
      (lexemesOf (Atom.blank ' ' :: Atom.scope each)) := by
  have hlast : (Lexeme.word (if each then "ROW" else "STATEMENT").toList).Formed rules := by
    cases each <;> exact Lexeme.formed_of_isFormed rfl
  have hparts : lexemesOf (Atom.blank ' ' :: Atom.scope each) =
      [.blank ' ', .word "FOR".toList, .blank ' ', .word "EACH".toList, .blank ' '] ++
        [.word (if each then "ROW" else "STATEMENT").toList] := rfl
  have hfront : Script rules [.blank ' ', .word "FOR".toList, .blank ' ', .word "EACH".toList,
      .blank ' '] := script_of_isScript (by rfl)
  rw [hparts]
  refine (h.run hfree hfront.formed (by decide)).append fun s hs => ?_
  obtain ⟨huncut, hheading, hprevious⟩ := hs.word hfree hlast (by cases each <;> decide)
  exact ⟨huncut, hheading, hprevious.trans (by cases each <;> decide)⟩

/-- Behind the head of a trigger a block may start. -/
theorem heading_triggerLine (hfree : LineFree d.rules) (hname : Readable t.name)
    (htable : Readable t.table) :
    Through (fun s => Heading d.rules s ∧ admits s.previous = true) (fresh d.rules)
      (lexemesOf (Atom.create (triggerLine d t))) := by
  have hblank : ∀ {s : Scanner}, Heading d.rules s →
      Through (Heading d.rules) s (lexemesOf [blank ' ']) := fun h =>
    h.run hfree ((row_nil d.rules).blank.apart.script.formed) (by decide)
  have hparts : Atom.create (triggerLine d t) = Atom.create (spell ["TRIGGER"]) ++ ([blank ' '] ++
      ([Atom.name d t.name] ++ ([blank ' '] ++ (Atom.timing t.timing ++ ([blank ' '] ++
        (Atom.events t.events ++ ([blank ' ', Atom.word "ON".toList, blank ' '] ++
          ([Atom.name d t.table] ++ (blank ' ' :: Atom.scope t.forEachRow))))))))) := by
    simp only [triggerLine, eventLine, List.append_assoc, List.cons_append, List.nil_append]
    rfl
  rw [hparts]
  simp only [lexemesOf_append]
  refine (heading_create hfree).append fun s hs => ?_
  refine (hs.1.blank hfree (by decide) hs.2).append fun s hs => ?_
  refine (hs.1.name hfree hs.2 hname).append fun s hs => ?_
  refine (hblank hs).append fun s hs => ?_
  refine (hs.run hfree (row_timing _ _).apart.script.formed (quiet_timing _)).append fun s hs => ?_
  refine (hblank hs).append fun s hs => ?_
  refine (hs.run hfree (row_events _ _).apart.script.formed (quiet_events _)).append fun s hs => ?_
  refine (hs.on hfree).append fun s hs => ?_
  refine (hs.1.name hfree hs.2 htable).append fun s hs => ?_
  exact hs.scope hfree t.forEachRow

/-! ### Reading -/

/-- The head of the statement is that of the trigger, and its body starts behind it. -/
theorem triggerStart?_triggerLine (hname : Readable t.name) (htable : Readable t.table)
    (hevents : t.events ≠ []) {rest : List Char} {b : Token} {ts : List Token}
    (hbody : Lexer.tokensFrom d.rules (width (textOf (Atom.create (triggerLine d t)) ++ ['\n'])) rest =
      b :: ts) (hends : EndsHead b) :
    triggerStart? d (textOf (Atom.create (triggerLine d t)) ++ '\n' :: rest) =
      some ({ t with body := "" }, b.offset) := by
  have happart : Apart d.rules (Atom.create (triggerLine d t) ++ [blank '\n']) :=
    (row_triggerLine hname htable).apart.append (Apart.nil.blank (by decide)) (led_newline [])
  have htext : textOf (Atom.create (triggerLine d t)) ++ '\n' :: rest =
      textOf (Atom.create (triggerLine d t) ++ [blank '\n']) ++ rest := by
    rw [Atom.textOf_append, List.append_assoc]
    rfl
  have hlast : ∀ a ∈ (Atom.create (triggerLine d t) ++ [blank '\n']).getLast?, ∀ c ∈ rest.head?,
      a.endsAt c = true := by
    intro a ha c _
    rw [List.getLast?_concat] at ha
    obtain rfl := Option.some.inj ha
    rfl
  have hall := happart.tokensFrom_append hlast 0
  rw [← htext, Nat.zero_add, Atom.textOf_append, textOf_singleton, Atom.text, hbody] at hall
  obtain ⟨k, hplace⟩ : ∃ k, place 0 (Atom.create (triggerLine d t) ++ [blank '\n']) =
      ⟨.word, "CREATE".toList, 0⟩ :: place k (triggerLine d t) := by
    refine ⟨7, ?_⟩
    rw [place_append]
    exact List.append_nil _
  have hobject : createHead {} (place k (triggerLine d t) ++ b :: ts) =
      some ({}, some .trigger, place k (triggerLine d t) ++ b :: ts) := rfl
  have hhead : triggerHead ⟨textOf (Atom.create (triggerLine d t)) ++ '\n' :: rest, d⟩
      (place k (triggerLine d t) ++ b :: ts) = .ok ({ t with body := "" }, b :: ts) :=
    triggerHead_of_line hevents k hends
  rw [hplace] at hall
  exact triggerStart?_of_tokens hall hobject hhead

end DdlBridge
