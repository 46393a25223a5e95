import DdlBridge.Proofs.Statement.Rejected
import DdlBridge.Proofs.Stream.Agreement

/-!
# When the size of the batches shows

A scanner that reads on keeps the line it is on, and one that starts a batch does not. So where a `;`
stands in front of what would be a terminator line, a batch that ends at the `;` sees a terminator
line that a larger batch does not see. `sizeFree_iff` says that nothing else makes a difference.
-/

namespace DdlBridge

open Statement Scanner Text Grammar

/-- Every parser of the dialect finds the same schema, however it cuts the text and however the text
is delivered, or none finds one. -/
def SizeFree (d : Dialect) (script : List Char) : Prop :=
  ∀ p q : StreamParser, p.dialect = d → q.dialect = d →
    ∀ (source source' : Delivery script) (schema : Schema),
      p.result source = .ok schema ↔ q.result source' = .ok schema

variable {d : Dialect} {script : List Char}

/-- A text in which no terminator line is hidden comes to the same schema in batches of any size. -/
theorem sizeFree_of_not_severed (hblank : ∀ c ∈ script, isBlank c = true → c ∈ plainBlanks)
    (hsevered : ¬ Severed d.rules script) : SizeFree d script := by
  have hresult : ∀ p : StreamParser, p.dialect = d → ∀ (source : Delivery script) (schema : Schema),
      p.result source = .ok schema ↔
        ∃ statements, split d.rules script = .ok statements ∧ define d {} statements = .ok schema := by
    rintro p rfl source schema
    exact result_of_divides hblank
      (Batcher.divides_of_not_severed (lineFree_or _) hsevered hblank _) source schema
  intro p q hp hq source source' schema
  rw [hresult p hp, hresult q hq]

/-- A batch that holds the whole of a severed text is rejected. -/
theorem result_ne_ok_of_severed (hblank : ∀ c ∈ script, isBlank c = true → c ∈ plainBlanks)
    {p : StreamParser} (hsevered : Severed p.dialect.rules script)
    (hsize : width script < p.config.batchSize) (source : Delivery script) (schema : Schema) :
    p.result source ≠ .ok schema := by
  rw [Ne, result_of_divides hblank (Batcher.divides_of_lt hblank hsize)]
  rintro ⟨statements, hsplit, hdefine⟩
  obtain ⟨s, hs, e, herror⟩ := exists_rejected (lineFree_or _) hblank hsevered hsplit
  obtain ⟨e', hdefine'⟩ := exists_define_eq_error {} hs herror
  rw [hdefine] at hdefine'
  exact absurd hdefine' (by simp)

/-- The size of the batches shows exactly if a terminator line is hidden behind a `;` and some
parser gets past it. -/
theorem sizeFree_iff (hblank : ∀ c ∈ script, isBlank c = true → c ∈ plainBlanks) :
    SizeFree d script ↔
      ¬ (Severed d.rules script ∧ ∃ (p : StreamParser) (source : Delivery script) (schema : Schema),
        p.dialect = d ∧ p.result source = .ok schema) := by
  constructor
  · rintro hfree ⟨hsevered, p, source, schema, rfl, hresult⟩
    let q : StreamParser :=
      { dialect := p.dialect, config := { batchSize := width script + 1 } }
    have hsame := (hfree p q rfl rfl source source schema).1 hresult
    exact result_ne_ok_of_severed (p := q) hblank hsevered (Nat.lt_succ_self _) source schema hsame
  · intro hnone
    by_cases hsevered : Severed d.rules script
    · intro p q hp hq source source' schema
      have hnever : ∀ q : StreamParser, q.dialect = d → ∀ source : Delivery script,
          q.result source ≠ .ok schema :=
        fun q hq source hresult => hnone ⟨hsevered, q, source, schema, hq, hresult⟩
      exact ⟨fun h => absurd h (hnever p hp source), fun h => absurd h (hnever q hq source')⟩
    · exact sizeFree_of_not_severed hblank hsevered

theorem sizeFree_iff_slash_behind_select :
    let script := "SELECT 1; /\nSELECT 2;".toList
    Severed Dialect.oracle.rules script ∧
      (SizeFree .oracle script ↔
        ¬ (Severed Dialect.oracle.rules script ∧
          ∃ (p : StreamParser) (source : Delivery script) (schema : Schema),
            p.dialect = .oracle ∧ p.result source = .ok schema)) := by
  refine ⟨⟨"SELECT 1".toList, " /".toList, "SELECT 2;".toList, by decide, by decide,
    ⟨'S', by decide, by decide⟩, by decide, by decide⟩, sizeFree_iff (plain_of_all (by decide))⟩

end DdlBridge
