import DdlBridge.Proofs.Ddl.Statements
import DdlBridge.Proofs.Ddl.TriggerHead
import DdlBridge.Proofs.Grammar.TypeText
import DdlBridge.Proofs.Statement.Facing
import DdlBridge.Proofs.Statement.StoredUnit

/-!
# Triggers of Oracle

The DDL of a trigger is its head, its body and a `/` line. The head is a stored unit to a scanner
(`inUnit_oracleHead`), so nothing but a line ends the statement in the body, and the body comes back
as it was (`parse_oracleTrigger`).
-/

namespace DdlBridge

open Text Atom Ddl

/-! ### The text -/

/-- The lines in front of the body. -/
def Atom.oracleHead (t : Trigger) : List Atom :=
  Atom.create (word "OR".toList :: blank ' ' :: word "REPLACE".toList :: blank ' ' ::
    (triggerLines .oracle t ++ forEachRow t.forEachRow))

theorem textOf_forEachRow (each : Bool) :
    textOf (Atom.forEachRow each) = (if each then "\nFOR EACH ROW" else "").toList := by
  cases each <;> decide

theorem toList_oracleTrigger (t : Trigger) : ((Style.of .oracle).createTrigger t).toList =
    textOf (Atom.oracleHead t) ++ '\n' :: ((terminated t.body).toList ++ ['\n', '/']) := by
  have hwords : "CREATE OR REPLACE TRIGGER ".toList =
      textOf (Atom.create (spell ["OR", "REPLACE", "TRIGGER"]) ++ [blank ' ']) := by decide
  have hparts : Atom.oracleHead t = Atom.create (spell ["OR", "REPLACE", "TRIGGER"]) ++ [blank ' '] ++
      (Atom.name .oracle t.name :: blank '\n' ::
        (Atom.eventLine .oracle t ++ Atom.forEachRow t.forEachRow)) := rfl
  rw [hparts, textOf_append, ← hwords, textOf_cons, textOf_cons, textOf_append, textOf_eventLine,
    textOf_forEachRow, text_name]
  show ((Style.of .oracle).oracleTrigger t).toList = _
  unfold Style.oracleTrigger
  simp only [String.toList_append, List.append_assoc]
  rfl

/-! ### The head -/

open Statement Scanner Grammar

variable {t : Trigger}

theorem long_eventLine (t : Trigger) : 3 ≤ weightOf (lexemesOf (Atom.eventLine .oracle t)) := by
  have htiming : 3 ≤ weightOf (lexemesOf (Atom.timing t.timing)) := by cases t.timing <;> decide
  rw [eventLine, weightOf_lexemesOf_append]
  exact Nat.le_trans htiming (Nat.le_add_right _ _)

/-- A unit goes on through the next line of its head. -/
theorem Statement.InUnit.nextLine {rules : LexicalRules} {s : Scanner} {as : List Atom}
    (h : InUnit rules 3 s) (hrow : Row rules as) (hlong : 3 ≤ weightOf (lexemesOf as)) :
    Through (InUnit rules 3) s (lexemesOf (blank '\n' :: as)) := by
  refine (h.newline (Nat.le_refl 3)).append fun u hu => ?_
  obtain ⟨huncut, hbehind⟩ := hu.run hrow.apart.script.formed hrow.calm_lexemesOf
  exact ⟨huncut, hbehind.mono (by omega)⟩

/-- The first words make the statement a stored unit. -/
theorem inUnit_create : Through (InUnit Dialect.oracle.rules 3) (fresh Dialect.oracle.rules)
    (lexemesOf (Atom.create (spell ["OR", "REPLACE", "TRIGGER"]))) := by
  have hclosed :
      let r := takeAll (fresh Dialect.oracle.rules)
        (lexemesOf (Atom.create (spell ["OR", "REPLACE", "TRIGGER"])))
      r.2 = false ∧ (r.1.region = .normal ∧ r.1.word = []) ∧ r.1.rules = Dialect.oracle.rules ∧
        r.1.storedUnit = true ∧ 3 ≤ r.1.line.length := by decide +kernel
  obtain ⟨huncut, hsettled, hunder, hunit, hline⟩ := hclosed
  exact ⟨huncut, ⟨⟨hsettled.1, hsettled.2⟩, hunder, .inr (.inr hline)⟩, hunit⟩

theorem row_forEachRow : Row Dialect.oracle.rules (spell ["FOR", "EACH", "ROW"]) :=
  row_spell (by decide +kernel)

theorem led_forEachRow (each : Bool) : Led (Atom.forEachRow each) := by
  cases each with
  | false => exact led_nil
  | true => exact led_newline _

theorem apart_forEachRow (each : Bool) : Apart Dialect.oracle.rules (Atom.forEachRow each) := by
  cases each with
  | false => exact .nil
  | true => exact row_forEachRow.apart.blank (by decide)

theorem inUnit_oracleHead (hname : PlainName t.name) (htable : PlainName t.table) :
    Apart Dialect.oracle.rules (Atom.oracleHead t) ∧
      Through (InUnit Dialect.oracle.rules 3) (fresh Dialect.oracle.rules)
        (lexemesOf (Atom.oracleHead t)) := by
  have hline : Row Dialect.oracle.rules [blank ' ', Atom.name .oracle t.name] :=
    (row_name hname.readable (row_nil _) led_nil).blank
  have hevents := row_eventLine (d := .oracle) (t := t) htable.readable
  have hparts : Atom.oracleHead t = Atom.create (spell ["OR", "REPLACE", "TRIGGER"]) ++
      ([blank ' ', Atom.name .oracle t.name] ++
        (blank '\n' :: Atom.eventLine .oracle t ++ Atom.forEachRow t.forEachRow)) := rfl
  rw [hparts]
  constructor
  · have hwords : Row Dialect.oracle.rules (spell ["CREATE", "OR", "REPLACE", "TRIGGER"]) :=
      row_spell (by decide +kernel)
    refine hwords.apart.append (hline.apart.append ?_ (led_newline _)) (led_blank _)
    exact (hevents.apart.blank (by decide)).append (apart_forEachRow _) (led_forEachRow _)
  · rw [lexemesOf_append, lexemesOf_append, lexemesOf_append]
    refine inUnit_create.append fun u hu => ?_
    have hfirst : Through (InUnit Dialect.oracle.rules 3) u
        (lexemesOf [blank ' ', Atom.name .oracle t.name]) := by
      obtain ⟨huncut, hbehind⟩ := hu.run hline.apart.script.formed hline.calm_lexemesOf
      exact ⟨huncut, hbehind.mono (Nat.le_add_right _ _)⟩
    refine hfirst.append fun u hu => ?_
    refine (hu.nextLine hevents (long_eventLine t)).append fun u hu => ?_
    cases t.forEachRow with
    | false => exact ⟨rfl, hu⟩
    | true => exact hu.nextLine row_forEachRow (by decide)

/-! ### The body -/

/-- The body starts with a word that starts a block of PL/SQL. -/
def OpensBody (body : List Char) : Prop :=
  upper (body.takeWhile Lexer.continuesWord) ∈ ["BEGIN".toList, "DECLARE".toList]

instance (body : List Char) : Decidable (OpensBody body) := inferInstanceAs (Decidable (_ ∈ _))

theorem OpensBody.cases {body : List Char} (h : OpensBody body) : ∃ c cs, body = c :: cs ∧
    Lexer.startsWord c = true ∧ c.toNat < 128 ∧ c.toUpper ≠ 'G' ∧
      StartsBody ⟨.word, c :: cs.takeWhile Lexer.continuesWord, 0⟩ := by
  have hfirst : ∀ w ∈ ["BEGIN".toList, "DECLARE".toList], isWord w = true ∧
      ∀ c ∈ w.head?, c.toNat < 128 ∧ c ≠ 'G' := by
    intro w hw
    simp only [List.mem_cons, List.not_mem_nil, or_false] at hw
    rcases hw with rfl | rfl
    all_goals
      refine ⟨by decide +kernel, fun c hc => ?_⟩
      obtain rfl := Option.some.inj hc
      decide
  obtain ⟨hword, hhead⟩ := hfirst _ h
  rw [isWord_upper] at hword
  obtain ⟨c, more, htake, hstart, -⟩ := isWord_cases hword
  cases body with
  | nil => exact absurd htake (by simp)
  | cons d cs =>
    have hcontinues : Lexer.continuesWord d = true := by
      by_contra hnot
      rw [List.takeWhile_cons_of_neg hnot] at htake
      exact absurd htake (by simp)
    rw [List.takeWhile_cons_of_pos hcontinues] at htake
    obtain ⟨rfl, -⟩ := List.cons.inj htake
    rw [OpensBody, List.takeWhile_cons_of_pos hcontinues] at h
    rw [List.takeWhile_cons_of_pos hcontinues] at hhead
    obtain ⟨hascii, hg⟩ := hhead d.toUpper rfl
    have hd : d.toNat < 128 := by
      rcases Nat.lt_or_ge d.toNat 128 with hlt | hge
      · exact hlt
      · rwa [toUpper_of_le hge] at hascii
    refine ⟨d, cs, rfl, hstart, hd, hg, ?_⟩
    have hkeyword : ∀ w ∈ ["BEGIN".toList, "DECLARE".toList], String.ofList w = "BEGIN" ∨
        String.ofList w = "DECLARE" := by decide
    exact hkeyword _ h

theorem exists_tokens_body {body : List Char} (h : OpensBody body) (rules : LexicalRules) (n : Nat) :
    ∃ t ts, Lexer.tokensFrom rules n body = t :: ts ∧ StartsBody t ∧ t.offset = n := by
  obtain ⟨c, cs, rfl, hstart, -, -, hbody⟩ := h.cases
  rw [Lexer.tokensFrom_cons, takeSegment_of_startsWord rules hstart]
  exact ⟨_, _, rfl, hbody, rfl⟩

/-- The head of the statement is that of the trigger, and its body starts behind it. -/
theorem triggerStart?_oracleHead (hname : PlainName t.name) (htable : PlainName t.table)
    (hevents : t.events ≠ []) {body : List Char} (hbody : OpensBody body) :
    triggerStart? .oracle (textOf (Atom.oracleHead t) ++ '\n' :: body) =
      some ({ t with body := "" }, width (textOf (Atom.oracleHead t) ++ ['\n'])) := by
  have happart : Apart Dialect.oracle.rules (Atom.oracleHead t ++ [blank '\n']) :=
    (inUnit_oracleHead hname htable).1.append (Apart.nil.blank (by decide)) (led_newline [])
  have htext : textOf (Atom.oracleHead t) ++ '\n' :: body =
      textOf (Atom.oracleHead t ++ [blank '\n']) ++ body := by
    rw [Atom.textOf_append, List.append_assoc]
    rfl
  have hends : ∀ a ∈ (Atom.oracleHead t ++ [blank '\n']).getLast?, ∀ c ∈ body.head?,
      a.endsAt c = true := by
    intro a ha c _
    rw [List.getLast?_concat] at ha
    obtain rfl := Option.some.inj ha
    rfl
  obtain ⟨b, ts, htokens, hstarts, hoffset⟩ := exists_tokens_body hbody Dialect.oracle.rules
    (0 + width (textOf (Atom.oracleHead t ++ [blank '\n'])))
  have hall := happart.tokensFrom_append hends 0
  rw [htokens, ← htext] at hall
  obtain ⟨k, hplace⟩ : ∃ k, place 0 (Atom.oracleHead t ++ [blank '\n']) =
      ⟨.word, "CREATE".toList, 0⟩ :: ⟨.word, "OR".toList, 7⟩ :: ⟨.word, "REPLACE".toList, 10⟩ ::
        place k (triggerLines .oracle t ++ forEachRow t.forEachRow) := by
    refine ⟨18, ?_⟩
    rw [place_append]
    exact List.append_nil _
  have hobject : createHead {} (⟨.word, "OR".toList, 7⟩ :: ⟨.word, "REPLACE".toList, 10⟩ ::
      (place k (triggerLines .oracle t ++ forEachRow t.forEachRow) ++ b :: ts)) =
      some ({ orReplace := true }, some .trigger,
        place k (triggerLines .oracle t ++ forEachRow t.forEachRow) ++ b :: ts) := rfl
  have hhead : triggerHead ⟨textOf (Atom.oracleHead t) ++ '\n' :: body, .oracle⟩
      (place k (triggerLines .oracle t ++ forEachRow t.forEachRow) ++ b :: ts) =
      .ok ({ t with body := "" }, b :: ts) := triggerHead_of_lines hevents k hstarts.endsHead
  rw [hplace] at hall
  rw [triggerStart?_of_tokens hall hobject hhead, hoffset, Nat.zero_add, Atom.textOf_append]
  rfl

/-! ### The round trip -/

/-- The statement of a trigger, without the `;` and the line that end it. -/
def oracleStatement (t : Trigger) : List Char := textOf (Atom.oracleHead t) ++ '\n' :: t.body.toList

theorem ofStatement_oracleTrigger (hname : PlainName t.name) (htable : PlainName t.table)
    (hevents : t.events ≠ []) (htrim : trim t.body.toList = t.body.toList)
    (hopens : OpensBody t.body.toList) (n : Nat) :
    ofStatement .oracle ⟨n, oracleStatement t⟩ = .ok { triggers := [t] } := by
  have hrest : trim (dropBytes (width (textOf (Atom.oracleHead t) ++ ['\n'])) (oracleStatement t)) =
      t.body.toList := by
    have hparts : oracleStatement t = textOf (Atom.oracleHead t) ++ ['\n'] ++ t.body.toList :=
      List.append_cons _ _ _
    rw [hparts, dropBytes_width_append, htrim]
  have hne : t.body.toList ≠ [] := by
    obtain ⟨c, cs, hbody, -⟩ := hopens.cases
    simp [hbody]
  have hstart : triggerStart? .oracle (oracleStatement t) = _ :=
    triggerStart?_oracleHead hname htable hevents hopens
  rw [ofStatement_of_triggerStart? (s := ⟨n, oracleStatement t⟩) hstart (by rwa [hrest]), hrest,
    String.ofList_toList]

/-- A body that a scanner reads to its end as part of one statement stands in one. -/
theorem split_oracleStatement (hname : PlainName t.name) (htable : PlainName t.table)
    (htrim : trimEnd t.body.toList = t.body.toList) (hopens : OpensBody t.body.toList)
    (hfree : CutFree Dialect.oracle.rules ("CREATE TRIGGER x ".toList ++ t.body.toList))
    (hdone : (after Dialect.oracle.rules ("CREATE TRIGGER x ".toList ++ t.body.toList)).unfinished? =
      none) :
    split Dialect.oracle.rules (oracleStatement t ++ [';', '\n', '/']) =
      .ok [⟨0, oracleStatement t⟩] := by
  obtain ⟨c, cs, hbody, hstart, hascii, hletter, -⟩ := hopens.cases
  have hparts : oracleStatement t = textOf (Atom.oracleHead t) ++ ['\n'] ++ c :: cs := by
    rw [oracleStatement, hbody, List.append_assoc]
    rfl
  obtain ⟨happart, hhead⟩ := inUnit_oracleHead hname htable
  obtain ⟨hfront, hregion, hline, hunit⟩ :=
    InUnit.behind_newline happart.script (Nat.le_refl 3) hhead
  rw [textOf_lexemesOf] at hfront hregion hline hunit
  -- the lines of the head stand for the words that the body was read behind
  have hswaps : Swaps Dialect.oracle.rules "CREATE TRIGGER x ".toList
      (textOf (Atom.oracleHead t) ++ ['\n']) c :=
    ⟨plain_of_mem (by decide), by decide +kernel, hregion, hline, hascii,
      opensWord_of_startsWord hstart, hletter⟩
  rw [hbody] at htrim hfree hdone
  obtain ⟨hfree', hunit'⟩ := hswaps.cutFree hunit hfront hfree
  have hdone' := (hswaps.unfinished?_iff (c :: cs)).2 hdone
  have hkeep : trimEnd (oracleStatement t) = oracleStatement t := by
    rw [hparts, trimEnd_append_of_not_blank (not_blank_of_word (.inl hstart)), htrim]
  rw [← hparts] at hfree' hunit' hdone'
  obtain ⟨more, hmore⟩ : ∃ more, oracleStatement t = 'C' :: more := ⟨_, rfl⟩
  rw [hmore] at hfree' hunit' hdone' hkeep ⊢
  rw [split_of_unit rfl (by decide) (by decide) hfree' hunit' hdone', hkeep]

/-- A body that a scanner reads to its end as one statement comes back as it was. -/
theorem parse_oracleTrigger (t : Trigger) (hname : PlainName t.name) (htable : PlainName t.table)
    (hevents : t.events ≠ []) (htrim : trim t.body.toList = t.body.toList)
    (hopens : OpensBody t.body.toList) (hend : t.body.toList.getLast? ≠ some ';')
    (huncut : (scan Dialect.oracle.rules
      (encode ("CREATE TRIGGER x ".toList ++ t.body.toList))).boundaries = [])
    (hfinish : ∃ s, (scan Dialect.oracle.rules
      (encode ("CREATE TRIGGER x ".toList ++ t.body.toList))).scanner.finish = .ok s) :
    parse .oracle ((Style.of .oracle).createTrigger t) = .ok { triggers := [t] } := by
  have htrimEnd : trimEnd t.body.toList = t.body.toList := by
    rw [← htrim, trim, trimEnd_trimEnd]
  have hscript : ((Style.of .oracle).createTrigger t).toList =
      oracleStatement t ++ [';', '\n', '/'] := by
    have hterminated : (terminated t.body).toList = t.body.toList ++ [';'] := by
      rw [terminated, htrimEnd, if_neg hend, String.ofList_toList, String.toList_append]
      rfl
    rw [toList_oracleTrigger, hterminated, oracleStatement]
    simp
  have hsplit := split_oracleStatement hname htable htrimEnd hopens (cutFree_iff.2 huncut)
    (finish_scan_iff.1 hfinish)
  have hstatement := ofStatement_oracleTrigger hname htable hevents htrim hopens 0
  have hnotEmpty : (trim (oracleStatement t ++ [';', '\n', '/'])).isEmpty = false := by
    rw [isEmpty_trim_eq_false]
    exact ⟨'C', List.mem_cons_self, by decide⟩
  rw [parse, hscript, parseScript_of_ok hnotEmpty hsplit, define_cons_of_ok hstatement]
  rfl

/-- Counts the changed rows of a table, with `/` and `;` wherever they may stand. -/
def counting : Trigger where
  name := "count rows"
  table := "order"
  timing := .before
  events := [.update, .delete]
  forEachRow := true
  body := "declare\n  n NUMBER := 6 / 2; -- a; /\nBEGIN\n  /* '\n/\n*/ n := n\n / 2; x := q'[/];\n/\n]'; END"

theorem parse_oracleTrigger_counting :
    (PlainName counting.name ∧ PlainName counting.table ∧ counting.events ≠ [] ∧
      trim counting.body.toList = counting.body.toList ∧ OpensBody counting.body.toList ∧
      counting.body.toList.getLast? ≠ some ';') ∧
    parse .oracle ((Style.of .oracle).createTrigger counting) = .ok { triggers := [counting] } := by
  refine ⟨by decide +kernel, parse_oracleTrigger counting (by decide) (by decide) (by decide)
    (by decide +kernel) (by decide +kernel) (by decide +kernel) (by decide +kernel) ?_⟩
  exact finish_scan_iff.2 (by decide +kernel)

end DdlBridge
