import DdlBridge.Ddl.Script
import DdlBridge.Proofs.Grammar.Phrase
import DdlBridge.Proofs.Statement.Remark

/-!
# Sequences that are noted in a comment

A dialect without sequences gets a line comment that names the sequence. The name is written as it is,
so the text is only a comment when the name does not lead out of it (`createSequence_silent_iff`).
-/

namespace DdlBridge

open Text Statement Scanner Ddl

variable {d : Dialect} {q : Sequence}

/-- A text that ends neither a line comment nor a block comment. -/
def tame (cs : List Char) : Bool := cs.all fun c => c != '\n' && c != '\r' && c != '/'

theorem tame_append (cs cs' : List Char) : tame (cs ++ cs') = (tame cs && tame cs') := List.all_append

theorem tame_toString (i : Int) : tame (toString i).toList = true := by
  have hdigits : ∀ n, tame (Nat.toDigits 10 n) = true := by
    intro n
    rw [tame, List.all_eq_true]
    intro c hc
    have hdigit := Nat.isDigit_of_mem_toDigits (by decide) (by decide) hc
    simp only [Bool.and_eq_true, bne_iff_ne]
    refine ⟨⟨?_, ?_⟩, ?_⟩
    all_goals
      rintro rfl
      exact absurd hdigit (by decide)
  rw [← Atom.textOf_ofInt, Atom.ofInt]
  split
  case isTrue =>
    have htext : Atom.textOf [.punct '-', Atom.ofNat i.natAbs] = '-' :: Nat.toDigits 10 i.natAbs := by
      rw [Atom.textOf_cons, Atom.textOf_cons, Atom.text_ofNat_eq, Atom.textOf, List.flatMap_nil,
        List.append_nil]
      rfl
    rw [htext, tame, List.all_cons]
    exact hdigits _
  case isFalse =>
    have htext : Atom.textOf [Atom.ofNat i.natAbs] = Nat.toDigits 10 i.natAbs := by
      rw [Atom.textOf_cons, Atom.text_ofNat_eq, Atom.textOf, List.flatMap_nil, List.append_nil]
    rw [htext]
    exact hdigits _

namespace Ddl.Style

/-- What the comment says behind the name of the sequence. -/
def noteTail (q : Sequence) (product advice : String) : String :=
  s!" (START WITH {q.startValue} INCREMENT BY {q.incrementBy}) has no " ++ product ++
    " equivalent; use " ++ advice ++ "."

theorem sequenceNote_eq (q : Sequence) (product advice : String) :
    (sequenceNote q product advice).toList = ['-', '-'] ++ " Sequence ".toList ++
      (q.name.toList ++ (noteTail q product advice).toList) := by
  have hfront : "-- Sequence ".toList = ['-', '-'] ++ " Sequence ".toList := by decide +kernel
  calc
    (sequenceNote q product advice).toList =
        "-- Sequence ".toList ++ (q.name.toList ++ (noteTail q product advice).toList) := by
      unfold sequenceNote noteTail
      simp only [String.toList_append]
      simp only [List.append_assoc]
    _ = _ := by rw [hfront]

theorem closes_noteTail {product advice : String} (hproduct : tame product.toList = true)
    (hadvice : tame advice.toList = true) : Closes (noteTail q product advice).toList := by
  have htame : tame (noteTail q product advice).toList = true := by
    have hnumber : ∀ v : Int64, tame (toString v).toList = true := by
      intro v
      have hsame : toString v = toString v.toInt := rfl
      rw [hsame]
      exact tame_toString v.toInt
    have htext : ∀ t ∈ [" (START WITH ", " INCREMENT BY ", ") has no ", " equivalent; use ", "."],
        tame (toString t).toList = true := by decide +kernel
    simp only [List.mem_cons, List.not_mem_nil, or_false, forall_eq_or_imp, forall_eq] at htext
    obtain ⟨hopen, hby, hno, huse, hstop⟩ := htext
    unfold noteTail
    simp only [String.toList_append]
    simp only [tame_append, Bool.and_eq_true]
    exact ⟨⟨⟨⟨⟨⟨⟨⟨hopen, hnumber _⟩, hby⟩, hnumber _⟩, hno⟩, hproduct⟩, huse⟩, hadvice⟩, hstop⟩
  have hmem : ∀ c ∈ (noteTail q product advice).toList, c ≠ '\n' ∧ c ≠ '\r' ∧ c ≠ '/' := by
    intro c hc
    simpa [and_assoc] using List.all_eq_true.1 htame c hc
  refine ⟨⟨fun h => (hmem _ h).1 rfl, fun h => (hmem _ h).2.1 rfl⟩, fun h => (hmem _ h).2.2 rfl, ?_⟩
  have hopen : (toString " (START WITH ").toList = ' ' :: '(' :: "START WITH ".toList := by
    decide +kernel
  unfold noteTail
  simp only [String.toList_append]
  simp only [List.append_assoc]
  rw [hopen]
  exact ⟨_, rfl⟩

theorem silent_sequenceNote_iff {rules : LexicalRules} (hfree : LineFree rules)
    {product advice : String} (hproduct : tame product.toList = true)
    (hadvice : tame advice.toList = true) :
    Silent (fresh rules) (sequenceNote q product advice).toList ↔ Remark rules true q.name.toList := by
  have hword : OneLine " Sequence ".toList := by
    constructor
    · decide +kernel
    · decide +kernel
  rw [sequenceNote_eq]
  exact silent_iff (closes_noteTail hproduct hadvice) ⟨['-', '-'], _, .inl rfl, hword, rfl⟩
    ⟨rfl, hfree, ⟨rfl, rfl⟩, rfl⟩

end Ddl.Style

/-- The lexer and a scanner agree that a text is silent. -/
theorem silent_fresh_iff {text : List Char} : Silent (fresh d.rules) text ↔
    tokenize d text = [] ∧ (scan d.rules (encode (text ++ ['\n']))).boundaries = [] ∧
      (scan d.rules (encode (text ++ ['\n']))).scanner.content = false := by
  have htokens : tokenize d text = [] ↔ (Lexer.takeTrivia d.rules.hashComments text).2 = [] := by
    rw [tokenize, Lexer.tokensFrom_eq]
    cases (Lexer.takeTrivia d.rules.hashComments text).2 with
    | nil => simp
    | cons c rest => simp
  have hboundaries : (scan d.rules (encode (text ++ ['\n']))).boundaries = [] ↔
      (feedText (fresh d.rules) (text ++ ['\n'])).2 = false := by
    obtain ⟨hnone, hsome⟩ := boundaries_scan d.rules (encode (text ++ ['\n']))
    constructor
    · intro hempty
      by_contra hcut
      obtain ⟨b, hb, -⟩ := hsome (by rwa [Bool.not_eq_false] at hcut)
      rw [hempty] at hb
      exact absurd hb List.not_mem_nil
    · exact hnone
  rw [htokens, hboundaries, (scanner_scan d.rules (encode (text ++ ['\n']))).1]
  exact ⟨fun h => ⟨h.trivia, h.uncut, h.content⟩, fun h => ⟨h.1, h.2.1, h.2.2⟩⟩

/-- Where a dialect has no sequences, the text for one is only a comment exactly when the name of the
sequence stays in the comment: it has no line end, or behind each of them nothing but white space and
comments up to a line comment that the next line goes on with. -/
theorem createSequence_silent_iff (hd : d = .mysql ∨ d = .sqlite) (q : Sequence) :
    (tokenize d ((Style.of d).createSequence q).toList = [] ∧
      (scan d.rules (encode (((Style.of d).createSequence q).toList ++ ['\n']))).boundaries = [] ∧
      (scan d.rules (encode (((Style.of d).createSequence q).toList ++ ['\n']))).scanner.content =
        false) ↔
    Remark d.rules true q.name.toList := by
  rw [← silent_fresh_iff]
  obtain rfl | rfl := hd
  · exact Style.silent_sequenceNote_iff ⟨rfl, rfl⟩ (by decide +kernel) (by decide +kernel)
  · exact Style.silent_sequenceNote_iff ⟨rfl, rfl⟩ (by decide +kernel) (by decide +kernel)

/-- A name of one line stays in the comment, and one that ends the line with a statement behind it
does not. -/
theorem createSequence_silent_iff_two_names :
    tokenize .mysql ((Style.of .mysql).createSequence { name := "orders" }).toList = [] ∧
      ¬ Remark Dialect.sqlite.rules true "a\nDROP TABLE t;".toList := by
  have hname : Remark Dialect.mysql.rules true "orders".toList :=
    .line ⟨by decide +kernel, by decide +kernel⟩
  refine ⟨((createSequence_silent_iff (.inl rfl) { name := "orders" }).2 hname).1, fun hremark => ?_⟩
  have hsilent := (createSequence_silent_iff (.inr rfl) { name := "a\nDROP TABLE t;" }).2 hremark
  exact absurd hsilent.2.1 (by decide +kernel)

end DdlBridge
