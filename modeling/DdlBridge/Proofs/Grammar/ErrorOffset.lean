import DdlBridge.Proofs.Grammar.Complaint
import DdlBridge.Proofs.Statement.Lossless

/-!
# Where syntax errors point

The offset of a syntax error lies in the first statement that is no good, and what the message says
is so at that offset (`offset_of_parseScript`).
-/

namespace DdlBridge

open Text Statement DdlBridge.Grammar

variable {d : Dialect} {s : Statement} {offset : Nat} {message : String}

/-- What a message says of a place in the statement `s`, which has these tokens. At that place the
script reads `x`. -/
inductive Says (tokens : List Token) (s : Statement) (offset : Nat) (x : List Char) : String → Prop where
  | near {problem : Problem} {t : Token} (hquotes : problem.quotesToken = true) (ht : t ∈ tokens)
      (hoffset : offset = s.offset + t.offset) (hx : x = t.text) :
      Says tokens s offset x (problem.text ++ " near '" ++ String.ofList x ++ "'")
  | ending {problem : Problem} (hquotes : problem.quotesToken = true)
      (hoffset : offset = s.offset + width s.text) :
      Says tokens s offset x (problem.text ++ " at end of statement")
  | unbalanced {front rest : List Token} {t : Token} (htokens : tokens = front ++ t :: rest)
      (hoffset : offset = s.offset + t.offset) (hx : x = ['('])
      (hcloses : Parser.closing? 0 rest = none) : Says tokens s offset x "unbalanced parenthesis"
  | duplicate {front middle rest : List Token} {u t : Token} {first column table : String}
      (htokens : tokens = front ++ u :: (middle ++ t :: rest)) (hoffset : offset = s.offset + t.offset)
      (hx : x = t.text) (hu : u.ident? = some first) (ht : t.ident? = some column)
      (hsame : sameName first column = true) :
      Says tokens s offset x ("duplicate column '" ++ column ++ "' in table '" ++ table ++ "'")

theorem ne_of_getLast {text : String} {c : Char} (h : text.toList.getLast? = some c) (hc : c ≠ 'n') :
    text ≠ "unreadable token" := by
  rintro rfl
  exact hc (Option.some.inj (h.symm.trans (by decide)))

/-- No message says that a token cannot be read. -/
theorem Says.readable {tokens : List Token} {x : List Char} (h : Says tokens s offset x message) :
    message ≠ "unreadable token" := by
  cases h with
  | near =>
    exact ne_of_getLast (c := '\x27') (by simp [List.getLast?_append, List.getLast?_cons]) (by decide)
  | ending =>
    exact ne_of_getLast (c := 't') (by simp [List.getLast?_append, List.getLast?_cons]) (by decide)
  | unbalanced => decide
  | duplicate =>
    exact ne_of_getLast (c := '\x27') (by simp [List.getLast?_append, List.getLast?_cons]) (by decide)

/-! ### Tokens in their text -/

/-- A token is where its offset says. -/
theorem exists_of_mem_tokenize {text : List Char} {t : Token} (h : t ∈ tokenize d text) :
    t.text ≠ [] ∧ ∃ front back, text = front ++ (t.text ++ back) ∧ t.offset = width front := by
  obtain ⟨front, c, more, rest, htext, hoffset, -, -, htaken⟩ := Lexer.exists_of_mem_tokensFrom h
  have happend := Lexer.takeToken_append d.rules c more
  rw [htaken] at happend
  rw [Nat.zero_add] at hoffset
  exact ⟨happend.1, front, rest, by rw [htext, happend.2], hoffset⟩

/-- The text of a punctuation mark is the mark. -/
theorem text_of_isPunct {text : List Char} {t : Token} (h : t ∈ tokenize d text) {c : Char}
    (hpunct : t.isPunct c = true) : t.text = [c] := by
  obtain ⟨-, e, more, rest, -, -, -, -, htaken⟩ := Lexer.exists_of_mem_tokensFrom h
  simp only [Token.isPunct, Bool.and_eq_true, beq_iff_eq] at hpunct
  obtain ⟨hkind, hhead⟩ := hpunct
  have hread := read d.rules e more
  rw [htaken, hkind] at hread
  generalize t.text = text at hread hhead ⊢
  cases hread with
  | punct => rw [Option.some.inj hhead]
  | quoted _ hkind => simp at hkind

theorem text_of_quotesToken {problem : Problem} (h : problem.quotesToken = true) (t? : Option Token) :
    Complaint.text ⟨problem, t?⟩ = match t? with
      | some t => problem.text ++ " near '" ++ String.ofList t.text ++ "'"
      | none => problem.text ++ " at end of statement" := by
  cases t? with
  | none => exact if_pos h
  | some t => exact if_pos h

/-- The place that a complaint points at, and what the text has there. -/
theorem says_of_pointed {e : Complaint} (h : e.Pointed (tokenize d s.text)) : ∃ front x back,
    s.text = front ++ (x ++ back) ∧
      e.error s.offset s.text = .malformed (s.offset + width front) e.text ∧
      Says (tokenize d s.text) s (s.offset + width front) x e.text := by
  cases h with
  | @token problem t hquotes ht =>
    obtain ⟨-, front, back, htext, hoffset⟩ := exists_of_mem_tokenize ht
    refine ⟨front, t.text, back, htext, by rw [← hoffset]; rfl, ?_⟩
    rw [text_of_quotesToken hquotes]
    exact .near hquotes ht (by rw [hoffset]) rfl
  | @ending problem hquotes =>
    refine ⟨s.text, [], [], by simp, rfl, ?_⟩
    rw [text_of_quotesToken hquotes]
    exact .ending hquotes rfl
  | @unbalanced before rest t htokens hopens hcloses =>
    have ht : t ∈ tokenize d s.text := htokens ▸ by simp
    obtain ⟨-, front, back, htext, hoffset⟩ := exists_of_mem_tokenize ht
    refine ⟨front, t.text, back, htext, by rw [← hoffset]; rfl, ?_⟩
    exact .unbalanced htokens (by rw [hoffset]) (text_of_isPunct ht hopens) hcloses
  | @duplicate before middle rest u t first column table htokens hu hname hsame =>
    have ht : t ∈ tokenize d s.text := htokens ▸ by simp
    obtain ⟨-, front, back, htext, hoffset⟩ := exists_of_mem_tokenize ht
    refine ⟨front, t.text, back, htext, by rw [← hoffset]; rfl, ?_⟩
    exact .duplicate htokens (by rw [hoffset]) rfl hu hname hsame

/-! ### The statement at fault -/

theorem exists_of_ofStatement_error {e : Error} (h : ofStatement d s = .error e) :
    ∃ front x back, s.text = front ++ (x ++ back) ∧ ∃ message,
      e = .malformed (s.offset + width front) message ∧
      Says (tokenize d s.text) s (s.offset + width front) x message := by
  rw [ofStatement_eq] at h
  split at h
  case h_1 => contradiction
  case h_2 complaint hstatement =>
    have hpointed : complaint.Pointed (tokenize d s.text) :=
      points_statement.pointed List.suffix_rfl hstatement
    obtain ⟨front, x, back, htext, herror, hsays⟩ := says_of_pointed hpointed
    exact ⟨front, x, back, htext, _, (Except.error.inj h).symm.trans herror, hsays⟩

/-- The statements in front of the first that is no good are read. -/
theorem exists_of_define_error {schema : Schema} {statements : List Statement} {e : Error}
    (h : define d schema statements = .error e) : ∃ before s after, statements = before ++ s :: after ∧
      (∀ b ∈ before, ∃ fragment, ofStatement d b = .ok fragment) ∧ ofStatement d s = .error e := by
  induction statements generalizing schema with
  | nil => exact absurd h (by simp [define_nil])
  | cons s statements ih =>
    cases hs : ofStatement d s with
    | error e' =>
      rw [define_cons_of_error hs] at h
      exact ⟨[], s, statements, rfl, by simp, hs.trans h⟩
    | ok fragment =>
      rw [define_cons_of_ok hs] at h
      obtain ⟨before, s', after, rfl, hbefore, hs'⟩ := ih h
      exact ⟨s :: before, s', after, rfl, List.forall_mem_cons.2 ⟨⟨fragment, hs⟩, hbefore⟩, hs'⟩

/-- **Syntax errors point at the offending text.** The offset of a syntax error is the width of a
front of the script. It lies in a statement, or at its end, and all statements before that one are
good. What the message says is so of the text `x` that follows. -/
theorem offset_of_parseScript {script : List Char}
    (h : parseScript d script = .error (.malformed offset message)) : ∃ before s after front x back,
      split d.rules script = .ok (before ++ s :: after) ∧
      (∀ b ∈ before, ∃ fragment, ofStatement d b = .ok fragment) ∧
      script = front ++ (x ++ back) ∧ offset = width front ∧ offset ≤ width script ∧
      s.offset ≤ offset ∧ offset + width x ≤ s.offset + width s.text ∧
      Says (tokenize d s.text) s offset x message ∧ message ≠ "unreadable token" := by
  -- A script without statements, and one that cannot be cut into them, have errors without an offset.
  cases hscript : (trim script).isEmpty with
  | true =>
    unfold parseScript at h
    rw [hscript] at h
    exact absurd (Except.error.inj h) (by simp)
  | false =>
    cases hsplit : split d.rules script with
    | error e =>
      obtain ⟨text, rfl⟩ := exists_of_split_eq_error hsplit
      rw [parseScript_of_error hscript hsplit] at h
      exact absurd (Except.error.inj h) (by simp)
    | ok statements =>
      rw [parseScript_of_ok hscript hsplit] at h
      obtain ⟨before, s, after, rfl, hbefore, hs⟩ := exists_of_define_error h
      obtain ⟨front, x, back, htext, message, herror, hsays⟩ := exists_of_ofStatement_error hs
      obtain ⟨rfl, rfl⟩ := Error.malformed.inj herror
      obtain ⟨lead, trail, hoccurs, hoffset⟩ := (inPlace_of_split hsplit).occurs s (by simp)
      have hwidth := congrArg width htext
      simp only [width_append] at hwidth
      refine ⟨before, s, after, lead ++ front, x, back ++ trail, rfl, hbefore, ?_, ?_, ?_, ?_, ?_,
        hsays, hsays.readable⟩
      · rw [hoccurs, htext]
        simp
      · rw [width_append, hoffset]
      · simp only [hoccurs, width_append]
        omega
      · omega
      · omega

/-- A column that a table has already, behind a statement that is skipped. -/
theorem offset_of_parseScript_duplicate :
    parseScript .oracle "DROP TABLE t; CREATE TABLE t (é INT, id INT, ID INT)".toList =
        .error (.malformed 46 "duplicate column 'ID' in table 't'") ∧
      ∃ before s after front x back,
        split Dialect.oracle.rules "DROP TABLE t; CREATE TABLE t (é INT, id INT, ID INT)".toList =
          .ok (before ++ s :: after) ∧
        "DROP TABLE t; CREATE TABLE t (é INT, id INT, ID INT)".toList = front ++ (x ++ back) ∧
        width front = 46 ∧
        Says (tokenize .oracle s.text) s 46 x "duplicate column 'ID' in table 't'" :=
  have herror : parseScript .oracle "DROP TABLE t; CREATE TABLE t (é INT, id INT, ID INT)".toList =
      .error (.malformed 46 "duplicate column 'ID' in table 't'") := by decide +kernel
  have ⟨before, s, after, front, x, back, hsplit, _, hscript, hwidth, _, _, _, hsays, _⟩ :=
    offset_of_parseScript herror
  ⟨herror, before, s, after, front, x, back, hsplit, hscript, hwidth.symm, hsays⟩

end DdlBridge
