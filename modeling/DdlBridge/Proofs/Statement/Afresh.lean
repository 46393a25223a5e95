import DdlBridge.Proofs.Statement.Reading

/-!
# Going on like a new scanner

Behind a statement end a scanner still has the front part of its line, and what the statement before
held. The front part is looked at only at a line end, and only under rules that know a line that ends a
statement by itself; at a line end it is empty. So two scanners that differ in no more than that go on
differing in no more than that (`Alike.feed`), and nothing they report tells them apart.
-/

namespace DdlBridge.Scanner

open Statement Text

/-! ### What can be seen -/

/-- What a scanner reports of a byte. -/
structure Report where
  /-- If a statement ends behind the byte, whether it had content. -/
  ended : Option Bool
  /-- Whether the statement in progress has content. -/
  content : Bool
  deriving DecidableEq, Repr

def report (s : Scanner) (b : UInt8) : Report where
  ended := if (s.feed b).2 then some (s.feed b).1.lastContent else none
  content := (s.feed b).1.content

/-- What a scanner reports of the bytes that follow, one by one. -/
def reports (s : Scanner) : List UInt8 → List Report
  | [] => []
  | b :: bytes => s.report b :: (s.feed b).1.reports bytes

/-- Whether the text may end behind the bytes that follow, and why not. -/
def ending (s : Scanner) (bytes : List UInt8) : Except Error Unit :=
  (bytes.foldl feedByte (s, false)).1.finish.map fun _ => ()

theorem ending_cons (s : Scanner) (b : UInt8) (bytes : List UInt8) :
    s.ending (b :: bytes) = (s.feed b).1.ending bytes := by
  rw [ending, List.foldl_cons, foldl_feedByte_flag]
  rfl

theorem finish_onLine (s : Scanner) (base : List Char) (quoted last : Bool) :
    (s.onLine base quoted last).finish.map (fun _ => ()) = s.finish.map fun _ => () := by
  have hsame : (s.onLine base quoted last).unfinished? = s.unfinished? := rfl
  rw [finish, finish, hsame]
  cases s.unfinished? with
  | none => rfl
  | some e => rfl

/-! ### Scanners that nothing tells apart -/

/-- The first scanner may have started earlier on its line, if no line end looks at that, and behind
another statement. -/
def Alike (s t : Scanner) : Prop := ∃ base quoted last, s = t.onLine base quoted last ∧
  (LineFree t.rules ∨ (base = [] ∧ quoted = false))

variable {s t : Scanner}

theorem report_onLineStep {base : List Char} {quoted last : Bool} {b : UInt8}
    (h : s.feed b = onLineStep base quoted last (t.feed b)) : s.report b = t.report b := by
  simp only [report, h, onLineStep, onLine]
  split
  all_goals rfl

theorem Alike.feed (h : Alike s t) (hsound : t.Sound) (b : UInt8) :
    s.report b = t.report b ∧ Alike (s.feed b).1 (t.feed b).1 := by
  obtain ⟨base, quoted, last, rfl, hfront⟩ := h
  have hrules : (t.feed b).1.rules = t.rules := rules_step t _
  suffices hstep : ∃ base' quoted',
      (t.onLine base quoted last).feed b = onLineStep base' quoted' last (t.feed b) ∧
      (LineFree t.rules ∨ (base' = [] ∧ quoted' = false)) by
    obtain ⟨base', quoted', hfeed, hfront'⟩ := hstep
    refine ⟨report_onLineStep hfeed, base', quoted', _, congrArg Prod.fst hfeed, ?_⟩
    rwa [hrules]
  by_cases hc : Char.ofNat b.toNat = '\n'
  · have hunseen : Unseen t base quoted := hfront.imp_right .inr
    obtain ⟨base', quoted', hfeed, hsame⟩ := step_newline_onLine hsound hunseen last
    refine ⟨base', quoted', ?_, ?_⟩
    · rw [Scanner.feed, Scanner.feed, hc, hfeed]
    · refine hfront.imp_right fun hempty => ?_
      rcases hsame with hgone | ⟨-, rfl, rfl⟩
      · exact hgone
      · exact hempty
  · exact ⟨base, quoted, step_onLine t base quoted last _ hsound hc, hfront⟩

theorem Alike.reports (h : Alike s t) (hsound : t.Sound) (bytes : List UInt8) :
    s.reports bytes = t.reports bytes ∧ s.ending bytes = t.ending bytes := by
  induction bytes generalizing s t with
  | nil =>
    obtain ⟨base, quoted, last, rfl, -⟩ := h
    exact ⟨rfl, finish_onLine t base quoted last⟩
  | cons b bytes ih =>
    obtain ⟨hreport, hnext⟩ := h.feed hsound b
    obtain ⟨hreports, hending⟩ := ih hnext (hsound.step _)
    constructor
    · rw [Scanner.reports, Scanner.reports, hreport, hreports]
    · rw [ending_cons, ending_cons, hending]

/-! ### Behind a statement end -/

theorem sound_scan (rules : LexicalRules) (bytes : List UInt8) : (scan rules bytes).scanner.Sound := by
  induction bytes using List.reverseRecOn with
  | nil => exact sound_fresh rules
  | append_singleton bytes b ih =>
    rw [scan_concat]
    exact ih.step _

/-- What a statement end leaves is a new scanner but for its line, and the line is empty behind a line
end. -/
theorem alike_of_restarted {rules : LexicalRules} {c : Char} (h : Restarted rules c s)
    (hline : LineFree rules ∨ c = '\n') : Alike s (fresh rules) := by
  rcases h with ⟨rfl, line, quoted, last, rfl⟩ | ⟨-, -, last, rfl⟩
  · exact ⟨_, quoted, last, rfl, .inl (hline.resolve_right (by decide))⟩
  · exact ⟨[], false, last, rfl, .inr ⟨rfl, rfl⟩⟩

/-- **A scanner starts afresh behind a statement end.** Where no line ends a statement by itself, and
behind a line end under all rules, a scanner that has just met a statement end is not told from a new
one: whatever bytes follow, it finds the same statement ends, says the same of the content of the
statements that end there and of the one in progress, and takes the end of the text the same way. -/
theorem reports_of_cut {rules : LexicalRules} {bytes : List UInt8} {b : UInt8}
    (hcut : ((scan rules bytes).scanner.feed b).2 = true)
    (hline : (rules.slashLines = false ∧ rules.goLines = false) ∨ b = 10) (more : List UInt8) :
    (scan rules (bytes ++ [b])).scanner.reports more = (fresh rules).reports more ∧
      (scan rules (bytes ++ [b])).scanner.ending more = (fresh rules).ending more := by
  have hrestart := step_restarts (sound_scan rules bytes) hcut
  rw [rules_scan] at hrestart
  have halike : Alike (scan rules (bytes ++ [b])).scanner (fresh rules) := by
    rw [scan_concat]
    refine alike_of_restarted hrestart (hline.imp_right ?_)
    rintro rfl
    rfl
  exact halike.reports (sound_fresh rules) more

/-- A `;` that leaves a line and a statement with content behind, and a line that reads `GO`. -/
theorem reports_of_cut_two_ends :
    (((scan Dialect.mysql.rules (encode "SELECT 'a'".toList)).scanner.feed 59).2 = true ∧
      (scan Dialect.mysql.rules (encode "SELECT 'a'".toList ++ [59])).scanner.reports
          (encode "\n; -- b\n/* c".toList) =
        (fresh Dialect.mysql.rules).reports (encode "\n; -- b\n/* c".toList)) ∧
    ((scan Dialect.sqlServer.rules (encode "SELECT [a]\ngo".toList)).scanner.feed 10).2 = true ∧
      (scan Dialect.sqlServer.rules (encode "SELECT [a]\ngo".toList ++ [10])).scanner.reports
          (encode "GO\nSELECT 1;".toList) =
        (fresh Dialect.sqlServer.rules).reports (encode "GO\nSELECT 1;".toList) :=
  have hsemicolon :
      ((scan Dialect.mysql.rules (encode "SELECT 'a'".toList)).scanner.feed 59).2 = true := by
    decide +kernel
  have hgo :
      ((scan Dialect.sqlServer.rules (encode "SELECT [a]\ngo".toList)).scanner.feed 10).2 = true := by
    decide +kernel
  ⟨⟨hsemicolon, (reports_of_cut hsemicolon (.inl ⟨rfl, rfl⟩) _).1⟩,
    hgo, (reports_of_cut hgo (.inr rfl) _).1⟩

end DdlBridge.Scanner
