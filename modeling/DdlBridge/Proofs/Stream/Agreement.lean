import DdlBridge.Proofs.Stream.Call

/-!
# A stream and its text define the same schema

A source that is read in chunks and cut into batches comes to the schema of its text
(`result_agrees_with_parseScript`), and its first rejected statement is reported where it stands in
the source.
-/

namespace DdlBridge

open Statement Scanner Text Grammar

/-- A text, delivered in chunks. -/
structure Delivery (script : List Char) where
  chunks : List (List UInt8)
  /-- No chunk says that the input ends. -/
  nonempty : ∀ chunk ∈ chunks, chunk ≠ []
  whole : chunks.flatten = encode script

def Delivery.reads {script : List Char} (source : Delivery script) : List Read :=
  source.chunks.map .data

def Delivery.atOnce (script : List Char) : Delivery script where
  chunks := if script = [] then [] else [encode script]
  nonempty chunk hchunk := by
    by_cases hempty : script = []
    · rw [if_pos hempty] at hchunk
      exact absurd hchunk (by simp)
    · rw [if_neg hempty, List.mem_singleton] at hchunk
      intro hnil
      have hlength := length_encode script
      rw [← hchunk, hnil] at hlength
      obtain ⟨c, cs, rfl⟩ := List.exists_cons_of_ne_nil hempty
      have hpos := c.utf8Size_pos
      rw [width_cons, List.length_nil] at hlength
      omega
  whole := by
    by_cases hempty : script = []
    · rw [if_pos hempty, hempty]
      rfl
    · rw [if_neg hempty, List.flatten_cons, List.flatten_nil, List.append_nil]

/-- The result of parsing a delivered text. -/
def StreamParser.result {script : List Char} (p : StreamParser) (source : Delivery script) :
    Except Error Schema :=
  (p.call (some source.reads) none []).result

variable {p : StreamParser} {script : List Char}

theorem not_severed_of_lineFree {rules : LexicalRules} (hfree : LineFree rules) :
    ¬ Severed rules script := by
  rintro ⟨u, v, w, -, -, -, -, hline⟩
  rcases feedChar_restarts (sound_after rules v) hline with ⟨h, -⟩ | ⟨-, h, -⟩
  · exact absurd h (by decide)
  · rw [rules_after] at h
    exact h hfree

/-- The result of a call on a divided text, against its statements. -/
theorem result_of_divides (hblank : ∀ c ∈ script, isBlank c = true → c ∈ plainBlanks)
    (hdivides : Batcher.Divides p.dialect.rules p.config.batchSize script)
    (source : Delivery script) (schema : Schema) :
    p.result source = .ok schema ↔
      ∃ statements, split p.dialect.rules script = .ok statements ∧
        define p.dialect {} statements = .ok schema := by
  cases hsplit : split p.dialect.rules script with
  | error e =>
    obtain ⟨e', hresult⟩ := call_of_unfinished hdivides hblank source.nonempty source.whole hsplit
    rw [StreamParser.result, Delivery.reads, hresult]
    simp
  | ok statements =>
    obtain ⟨hok, herror⟩ := call_of_finished hdivides hblank source.nonempty source.whole hsplit
    cases hdefine : define p.dialect {} statements with
    | ok schema' =>
      rw [StreamParser.result, Delivery.reads, hok schema' hdefine]
      simp [hdefine]
    | error e =>
      obtain ⟨index, hresult⟩ := herror e hdefine
      rw [StreamParser.result, Delivery.reads, hresult]
      simp [hdefine]

/-- Under rules without terminator lines a stream comes to what its text comes to, however it is
delivered and cut into batches. -/
theorem result_agrees_with_parseScript
    (hdialect : p.dialect = .mysql ∨ p.dialect = .postgres ∨ p.dialect = .sqlite)
    (hscript : (trim script).isEmpty = false)
    (hblank : ∀ c ∈ script, isBlank c = true → c ∈ plainBlanks) (source : Delivery script) :
    (∀ schema, p.result source = .ok schema ↔ parseScript p.dialect script = .ok schema) ∧
      ∀ offset text, parseScript p.dialect script = .error (.malformed offset text) →
        ∃ index, p.result source = .error (.inBatch index (.malformed offset text)) := by
  have hfree : LineFree p.dialect.rules := by
    rcases hdialect with h | h | h <;> rw [h] <;> exact ⟨rfl, rfl⟩
  have hdivides := Batcher.divides_of_not_severed (.inl hfree) (not_severed_of_lineFree hfree)
    hblank p.config.batchSize
  refine ⟨fun schema => ?_, fun offset text hparse => ?_⟩
  · rw [result_of_divides hblank hdivides, parseScript_eq_ok_iff hscript]
  · cases hsplit : split p.dialect.rules script with
    | error e =>
      rw [parseScript_of_error hscript hsplit] at hparse
      obtain ⟨text', rfl⟩ := exists_of_split_eq_error hsplit
      exact absurd (Except.error.inj hparse) (by simp)
    | ok statements =>
      rw [parseScript_of_ok hscript hsplit] at hparse
      obtain ⟨-, herror⟩ := call_of_finished hdivides hblank source.nonempty source.whole hsplit
      exact herror _ hparse

theorem result_agrees_with_parseScript_two_views :
    let p : StreamParser := { dialect := .mysql, config := { batchSize := 1 } }
    let script := "CREATE VIEW v AS SELECT 1; CREATE VIEW w AS SELECT 2;".toList
    (∀ schema, p.result (.atOnce script) = .ok schema ↔ parseScript .mysql script = .ok schema) ∧
      ∀ offset text, parseScript .mysql script = .error (.malformed offset text) →
        ∃ index, p.result (.atOnce script) = .error (.inBatch index (.malformed offset text)) :=
  result_agrees_with_parseScript (.inl rfl) (by decide) (plain_of_all (by decide)) _

end DdlBridge
