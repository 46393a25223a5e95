import DdlBridge.Proofs.Ddl.Name
import DdlBridge.Proofs.Grammar.Column
import DdlBridge.Proofs.Grammar.Trigger

/-!
# Heads of statements

The head of a trigger is read in front of any tokens that may be a body, whether it stands on one line
(`triggerHead_of_line`) or on several (`triggerHead_of_lines`).
-/

namespace DdlBridge

open Text Atom Ddl DdlBridge.Parser

variable {d : Dialect} {src : Source} {t : Token} {ts : List Token} {w : String}

/-- The token that a name in DDL is. -/
def Token.ofName (d : Dialect) (name : String) (n : Nat) : Token :=
  ⟨if needsQuoting name then .quotedIdent else .word, (Atom.name d name).text, n⟩

namespace Parser

theorem eatWords_of_not (ws : List String) (h : t.isWord w = false) :
    eatWords (w :: ws) src (t :: ts) = .ok (false, t :: ts) := by
  have hnot : startsWith (w :: ws) (t :: ts) = false := by rw [startsWith, h, Bool.false_and]
  rw [eatWords, if_neg (by rw [hnot]; simp)]

theorem eatWords_of_not_second {u : Token} {v : String} (ws : List String) (h : u.isWord v = false) :
    eatWords (w :: v :: ws) src (t :: u :: ts) = .ok (false, t :: u :: ts) := by
  have hnot : startsWith (w :: v :: ws) (t :: u :: ts) = false := by
    rw [startsWith, startsWith, h, Bool.false_and, Bool.and_false]
  rw [eatWords, if_neg (by rw [hnot]; simp)]

theorem eatPunct_of_not {c : Char} (h : ∀ u ∈ ts.head?, u.isPunct c = false) :
    eatPunct c src ts = .ok (false, ts) := by
  cases ts with
  | nil => rfl
  | cons u ts => exact if_neg (by rw [h u rfl]; simp)

theorem objectName_of_ident {name : String} (hname : t.ident? = some name)
    (hdot : ∀ u ∈ ts.head?, u.isPunct '.' = false) :
    objectName src (t :: ts) = .ok (name, ts) := by
  have hident : ident src (t :: ts) = .ok (name, ts) := by rw [ident, hname]
  rw [objectName, bind_of_ok hident]
  refine many_of_none ?_
  rw [bind_of_ok (eatPunct_of_not hdot)]
  rfl

theorem objectName_of_name (d : Dialect) (name : String) (n : Nat)
    (hdot : ∀ u ∈ ts.head?, u.isPunct '.' = false) :
    objectName src (Token.ofName d name n :: ts) = .ok (name, ts) :=
  objectName_of_ident (ident?_name d name n) hdot

end Parser

/-! ### Triggers -/

namespace Atom

def timing : Timing → List Atom
  | .before => spell ["BEFORE"]
  | .after => spell ["AFTER"]
  | .insteadOf => spell ["INSTEAD", "OF"]

def nextEvent (e : Event) : List Atom :=
  [blank ' ', word "OR".toList, blank ' ', word e.text.toList]

def events : List Event → List Atom
  | [] => []
  | e :: es => word e.text.toList :: es.flatMap nextEvent

def eventLine (d : Dialect) (t : Trigger) : List Atom :=
  timing t.timing ++ blank ' ' :: (events t.events ++
    [blank ' ', word "ON".toList, blank ' ', name d t.table])

/-- `TRIGGER` and what stands on its line and the next one. -/
def triggerLines (d : Dialect) (t : Trigger) : List Atom :=
  word "TRIGGER".toList :: blank ' ' :: name d t.name :: blank '\n' :: eventLine d t

def forEachRow (each : Bool) : List Atom :=
  if each then blank '\n' :: spell ["FOR", "EACH", "ROW"] else []

/-- What a trigger fires for. -/
def scope (each : Bool) : List Atom := spell ["FOR", "EACH", if each then "ROW" else "STATEMENT"]

/-- `TRIGGER` and the whole head on one line. -/
def triggerLine (d : Dialect) (t : Trigger) : List Atom :=
  word "TRIGGER".toList :: blank ' ' :: name d t.name :: blank ' ' ::
    (eventLine d t ++ blank ' ' :: scope t.forEachRow)

end Atom

namespace Grammar

theorem timing_of_atoms (timing : Timing) (n : Nat) :
    Grammar.timing src (place n (Atom.timing timing) ++ ts) = .ok (timing, ts) := by
  cases timing <;> rfl

theorem event_of_word (e : Event) (n : Nat) (hof : ∀ u ∈ ts.head?, u.isWord "OF" = false) :
    event src (⟨.word, e.text.toList, n⟩ :: ts) = .ok (e, ts) := by
  cases e with
  | insert | delete => rfl
  | update =>
    have heat : eatAny ["INSERT", "UPDATE", "DELETE"] src (⟨.word, "UPDATE".toList, n⟩ :: ts) =
        .ok (some "UPDATE", ts) := rfl
    have hnone : eatWord "OF" src ts = .ok (false, ts) := by
      cases ts with
      | nil => rfl
      | cons u ts => exact eatWords_of_not [] (hof u rfl)
    show event src (⟨.word, "UPDATE".toList, n⟩ :: ts) = _
    rw [event, bind_of_ok heat]
    exact bind_of_ok hnone _

/-- No `OF` follows an event. -/
theorem isWord_of_mem_head? (es : List Event) (n : Nat) (hof : t.isWord "OF" = false) :
    ∀ u ∈ (place n (es.flatMap Atom.nextEvent) ++ t :: ts).head?, u.isWord "OF" = false := by
  intro u hu
  cases es with
  | nil => exact Option.some.inj hu ▸ hof
  | cons e es =>
    obtain rfl := Option.some.inj hu
    rfl

/-- The events end where another word follows. -/
theorem many_nextEvent (done es : List Event) (n : Nat) (hor : t.isWord "OR" = false)
    (hof : t.isWord "OF" = false) (hcomma : t.isPunct ',' = false) :
    many nextEvent done src (place n (es.flatMap Atom.nextEvent) ++ t :: ts) =
      .ok (done ++ es, t :: ts) := by
  induction es generalizing done n with
  | nil =>
    have hword : eatWord "OR" src (t :: ts) = .ok (false, t :: ts) := eatWords_of_not [] hor
    have hpunct : eatPunct ',' src (t :: ts) = .ok (false, t :: ts) :=
      eatPunct_of_not fun u hu => Option.some.inj hu ▸ hcomma
    rw [List.append_nil]
    refine many_of_none ?_
    show nextEvent done src (t :: ts) = _
    rw [nextEvent, bind_of_ok hword]
    exact bind_of_ok hpunct _
  | cons e es ih =>
    have hplace : ∃ k k' m, place n ((e :: es).flatMap Atom.nextEvent) ++ t :: ts =
        ⟨.word, "OR".toList, k⟩ :: ⟨.word, e.text.toList, k'⟩ ::
          (place m (es.flatMap Atom.nextEvent) ++ t :: ts) := ⟨_, _, _, rfl⟩
    obtain ⟨k, k', m, hplace⟩ := hplace
    have hor : eatWord "OR" src (⟨.word, "OR".toList, k⟩ :: ⟨.word, e.text.toList, k'⟩ ::
        (place m (es.flatMap Atom.nextEvent) ++ t :: ts)) =
        .ok (true, ⟨.word, e.text.toList, k'⟩ :: (place m (es.flatMap Atom.nextEvent) ++ t :: ts)) := rfl
    have hstep : nextEvent done src (place n ((e :: es).flatMap Atom.nextEvent) ++ t :: ts) =
        .ok (some (done ++ [e]), place m (es.flatMap Atom.nextEvent) ++ t :: ts) := by
      rw [hplace, nextEvent, bind_of_ok hor]
      exact bind_of_ok (event_of_word e k' (isWord_of_mem_head? es m hof)) _
    have hlt : (place m (es.flatMap Atom.nextEvent) ++ t :: ts).length <
        (place n ((e :: es).flatMap Atom.nextEvent) ++ t :: ts).length := by
      rw [hplace, List.length_cons, List.length_cons]
      omega
    rw [many_of_some hstep hlt, ih, List.append_assoc]
    rfl

theorem events_of_atoms {es : List Event} (hes : es ≠ []) (n : Nat) {t : Token}
    (hor : t.isWord "OR" = false) (hof : t.isWord "OF" = false) (hcomma : t.isPunct ',' = false) :
    events src (place n (Atom.events es) ++ t :: ts) = .ok (es, t :: ts) := by
  obtain ⟨e, es, rfl⟩ := List.exists_cons_of_ne_nil hes
  have hfirst : event src (⟨.word, e.text.toList, n⟩ ::
      (place (n + width e.text.toList) (es.flatMap Atom.nextEvent) ++ t :: ts)) = .ok (e, _) :=
    event_of_word e n (isWord_of_mem_head? es _ hof)
  show (do many nextEvent [← event] : Parser (List Event)) src
    (⟨.word, e.text.toList, n⟩ ::
      (place (n + width e.text.toList) (es.flatMap Atom.nextEvent) ++ t :: ts)) = _
  rw [bind_of_ok hfirst, many_nextEvent [e] es _ hor hof hcomma]
  rfl

/-- The words that start a clause between the table and the body of a trigger. -/
def clauseWords : List String :=
  ["FOR", "REFERENCING", "FOLLOWS", "PRECEDES", "ENABLE", "DISABLE"]

/-- The head of a trigger ends in front of the token. -/
structure EndsHead (t : Token) : Prop where
  word : t.kind = .word
  clause : t.keyword ∉ clauseWords

theorem EndsHead.isPunct_eq_false (h : EndsHead t) (c : Char) : t.isPunct c = false := by
  rw [Token.isPunct, h.word]
  rfl

theorem EndsHead.isWord_eq_false (h : EndsHead t) (hw : w ∈ clauseWords) : t.isWord w = false := by
  have hupper : ∀ w ∈ clauseWords, String.ofList (upper w.toList) = w := by decide
  refine isWord_of_keyword_ne (hupper w hw) ?_
  rintro rfl
  exact h.clause hw

/-- The word that a body in PL/SQL starts with. -/
def StartsBody (t : Token) : Prop := t.keyword = "BEGIN" ∨ t.keyword = "DECLARE"

theorem StartsBody.endsHead (h : StartsBody t) : EndsHead t := by
  have hall : ∀ w ∈ ["BEGIN", "DECLARE"], w ≠ "" ∧ w ∉ clauseWords := by decide
  obtain ⟨hne, hclause⟩ := hall t.keyword (by simpa [StartsBody] using h)
  refine ⟨?_, hclause⟩
  by_contra hkind
  exact hne (if_neg hkind)

/-- The clauses behind the table of a trigger end where its body starts. -/
theorem triggerClauses_of_body (h : EndsHead t) (each : Bool) :
    many triggerClause each src (t :: ts) = .ok (each, t :: ts) := by
  have hrow : eatWords ["FOR", "EACH", "ROW"] src (t :: ts) = .ok (false, t :: ts) :=
    eatWords_of_not _ (h.isWord_eq_false (by decide))
  have hstatement : eatWords ["FOR", "EACH", "STATEMENT"] src (t :: ts) = .ok (false, t :: ts) :=
    eatWords_of_not _ (h.isWord_eq_false (by decide))
  have hreferencing : eatWord "REFERENCING" src (t :: ts) = .ok (false, t :: ts) :=
    eatWords_of_not _ (h.isWord_eq_false (by decide))
  have hnone : ∀ ws : List String, (∀ w ∈ ws, w ∈ clauseWords) →
      eatAny ws src (t :: ts) = .ok (none, t :: ts) :=
    fun ws hws => if_neg fun hmem => h.clause (hws _ hmem)
  refine many_of_none ?_
  exact (bind_of_ok hrow _).trans ((bind_of_ok hstatement _).trans ((bind_of_ok hreferencing _).trans
    ((bind_of_ok (hnone ["FOLLOWS", "PRECEDES"] (by decide)) _).trans
      (bind_of_ok (hnone ["ENABLE", "DISABLE"] (by decide)) _))))

theorem triggerClauses_of_atoms (h : EndsHead t) (each : Bool) (n : Nat) :
    many triggerClause false src (place n (Atom.forEachRow each) ++ t :: ts) = .ok (each, t :: ts) := by
  cases each with
  | false => exact triggerClauses_of_body h false
  | true =>
    have hfirst : triggerClause false src (place n (Atom.forEachRow true) ++ t :: ts) =
        .ok (some true, t :: ts) := rfl
    rw [many_of_some hfirst (by simp [Atom.forEachRow, spell, place, token?, kind?])]
    exact triggerClauses_of_body h true

theorem triggerClauses_of_scope (h : EndsHead t) (each : Bool) (n : Nat) :
    many triggerClause false src (place n (Atom.scope each) ++ t :: ts) = .ok (each, t :: ts) := by
  have hfirst : triggerClause false src (place n (Atom.scope each) ++ t :: ts) =
      .ok (some each, t :: ts) := by cases each <;> rfl
  rw [many_of_some hfirst (by simp [Atom.scope, spell, place, token?, kind?])]
  exact triggerClauses_of_body h each

theorem isPunct_of_mem_forEachRow (h : EndsHead t) (each : Bool) (n : Nat) :
    ∀ u ∈ (place n (Atom.forEachRow each) ++ t :: ts).head?, u.isPunct '.' = false := by
  intro u hu
  cases each with
  | false => exact Option.some.inj hu ▸ h.isPunct_eq_false '.'
  | true =>
    obtain rfl := Option.some.inj hu
    rfl

/-- The tokens of a head with `more` behind its table. -/
theorem place_eventLine (d : Dialect) (t : Trigger) (c : Char) (more : List Atom) (n : Nat) :
    ∃ n₁ n₂ n₃ n₄ n₅ n₆,
      place n (word "TRIGGER".toList :: blank ' ' :: Atom.name d t.name :: blank c ::
          (Atom.eventLine d t ++ more)) =
        ⟨.word, "TRIGGER".toList, n⟩ :: Token.ofName d t.name n₁ :: (place n₂ (Atom.timing t.timing) ++
          (place n₃ (Atom.events t.events) ++ ⟨.word, "ON".toList, n₄⟩ :: Token.ofName d t.table n₅ ::
            place n₆ more)) := by
  have hparts : Atom.eventLine d t ++ more = Atom.timing t.timing ++ blank ' ' ::
      (Atom.events t.events ++ blank ' ' :: word "ON".toList :: blank ' ' ::
        Atom.name d t.table :: more) := by
    simp [Atom.eventLine]
  rw [hparts]
  simp only [place_blank, place_word, place_name, place_append]
  exact ⟨_, _, _, _, _, _, rfl⟩

/-- The tokens of a head are read up to what follows its clauses. -/
theorem triggerHead_of_tokens {t : Trigger} (hevents : t.events ≠ []) (n n₁ n₂ n₃ n₄ n₅ : Nat)
    {rows rest : List Token} (hdot : ∀ u ∈ rows.head?, u.isPunct '.' = false)
    (hclauses : many triggerClause false src rows = .ok (t.forEachRow, rest)) :
    triggerHead src (⟨.word, "TRIGGER".toList, n⟩ :: Token.ofName d t.name n₁ ::
      (place n₂ (Atom.timing t.timing) ++ (place n₃ (Atom.events t.events) ++
        ⟨.word, "ON".toList, n₄⟩ :: Token.ofName d t.table n₅ :: rows))) =
      .ok ({ t with body := "" }, rest) := by
  have htable : objectName src (Token.ofName d t.table n₅ :: rows) = .ok (t.table, rows) :=
    objectName_of_name d t.table n₅ hdot
  have hon : expectWord "ON" src (⟨.word, "ON".toList, n₄⟩ :: Token.ofName d t.table n₅ :: rows) =
      .ok ((), Token.ofName d t.table n₅ :: rows) := rfl
  have hevents : events src (place n₃ (Atom.events t.events) ++ ⟨.word, "ON".toList, n₄⟩ ::
      Token.ofName d t.table n₅ :: rows) = .ok (t.events, _) :=
    events_of_atoms hevents n₃ rfl rfl rfl
  generalize place n₃ (Atom.events t.events) ++ ⟨.word, "ON".toList, n₄⟩ ::
    Token.ofName d t.table n₅ :: rows = late at hevents ⊢
  have htiming : Grammar.timing src (place n₂ (Atom.timing t.timing) ++ late) =
      .ok (t.timing, late) := timing_of_atoms t.timing n₂
  obtain ⟨u, us, hlate, hnot, hnotOn, hdot⟩ : ∃ u us, place n₂ (Atom.timing t.timing) ++ late = u :: us ∧
      u.isWord "NOT" = false ∧ u.isWord "ON" = false ∧ u.isPunct '.' = false := by
    cases t.timing <;> exact ⟨_, _, rfl, rfl, rfl, rfl⟩
  rw [hlate] at htiming ⊢
  have htrigger : expectWord "TRIGGER" src (⟨.word, "TRIGGER".toList, n⟩ ::
      Token.ofName d t.name n₁ :: u :: us) = .ok ((), Token.ofName d t.name n₁ :: u :: us) := rfl
  have hexists : (discard (eatWords ["IF", "NOT", "EXISTS"]) : Parser PUnit) src
      (Token.ofName d t.name n₁ :: u :: us) = .ok ((), Token.ofName d t.name n₁ :: u :: us) :=
    bind_of_ok (eatWords_of_not_second ["EXISTS"] hnot) _
  have hname : objectName src (Token.ofName d t.name n₁ :: u :: us) = .ok (t.name, u :: us) :=
    objectName_of_name d t.name n₁ fun v hv => Option.some.inj hv ▸ hdot
  have hnotTable : eatWord "ON" src (u :: us) = .ok (false, u :: us) := eatWords_of_not [] hnotOn
  rw [triggerHead, bind_of_ok htrigger, bind_of_ok hexists, bind_of_ok hname, bind_of_ok hnotTable]
  exact (bind_of_ok htiming _).trans ((bind_of_ok hevents _).trans ((bind_of_ok hon _).trans
    ((bind_of_ok htable _).trans (bind_of_ok hclauses _))))

/-- The head of a trigger is read up to its body. -/
theorem triggerHead_of_lines {t : Trigger} (hevents : t.events ≠ []) (n : Nat) {body : Token}
    (hbody : EndsHead body) :
    triggerHead src (place n (triggerLines d t ++ Atom.forEachRow t.forEachRow) ++ body :: ts) =
      .ok ({ t with body := "" }, body :: ts) := by
  obtain ⟨n₁, n₂, n₃, n₄, n₅, n₆, hplace⟩ :=
    place_eventLine d t '\n' (Atom.forEachRow t.forEachRow) n
  rw [triggerLines, List.cons_append, List.cons_append, List.cons_append, List.cons_append, hplace]
  simp only [List.cons_append, List.append_assoc]
  exact triggerHead_of_tokens hevents n n₁ n₂ n₃ n₄ n₅
    (isPunct_of_mem_forEachRow hbody t.forEachRow n₆) (triggerClauses_of_atoms hbody t.forEachRow n₆)

/-- So is one that stands on a line. -/
theorem triggerHead_of_line {t : Trigger} (hevents : t.events ≠ []) (n : Nat) {body : Token}
    (hbody : EndsHead body) :
    triggerHead src (place n (triggerLine d t) ++ body :: ts) =
      .ok ({ t with body := "" }, body :: ts) := by
  obtain ⟨n₁, n₂, n₃, n₄, n₅, n₆, hplace⟩ :=
    place_eventLine d t ' ' (blank ' ' :: Atom.scope t.forEachRow) n
  rw [triggerLine, hplace]
  simp only [List.cons_append, List.append_assoc]
  refine triggerHead_of_tokens hevents n n₁ n₂ n₃ n₄ n₅ (fun u hu => ?_)
    (triggerClauses_of_scope hbody t.forEachRow (n₆ + 1))
  obtain rfl := Option.some.inj hu
  rfl

end Grammar

end DdlBridge
