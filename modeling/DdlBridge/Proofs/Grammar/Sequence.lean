import DdlBridge.Grammar.Sequence
import DdlBridge.Proofs.Grammar.Table

/-!
# Reading sequences

A sequence is a name and clauses. Each clause sets one field (`reads_sequenceClause`), so all of them
together give the sequence back (`reads_sequenceDefinition`).
-/

namespace DdlBridge

open Text Atom Ddl DdlBridge.Parser DdlBridge.Grammar

variable {d : Dialect} {more : List Atom}

/-- What may stand behind the name of a sequence. -/
inductive SequenceClause where
  | startWith (v : Int64)
  | incrementBy (v : Int64)
  | minValue (v : Int64)
  | maxValue (v : Int64)
  | cache (v : Int64)
  | cycle

namespace SequenceClause

def atoms : SequenceClause → List Atom
  | startWith v => spell ["START", "WITH"] ++ blank ' ' :: ofInt v.toInt
  | incrementBy v => spell ["INCREMENT", "BY"] ++ blank ' ' :: ofInt v.toInt
  | minValue v => spell ["MINVALUE"] ++ blank ' ' :: ofInt v.toInt
  | maxValue v => spell ["MAXVALUE"] ++ blank ' ' :: ofInt v.toInt
  | cache v => spell ["CACHE"] ++ blank ' ' :: ofInt v.toInt
  | cycle => spell ["CYCLE"]

/-- The sequence with the clause behind it. -/
def apply (s : Sequence) : SequenceClause → Sequence
  | startWith v => { s with startValue := v }
  | incrementBy v => { s with incrementBy := v }
  | minValue v => { s with minValue := some v }
  | maxValue v => { s with maxValue := some v }
  | cache v => { s with cache := some v }
  | cycle => { s with cycle := true }

end SequenceClause

/-- The first token does not touch what stands before it. -/
def Detached (as : List Atom) : Prop := ∀ n, ∀ t ∈ (place n as).head?, n < t.offset

theorem detached_blank (c : Char) (as : List Atom) : Detached (blank c :: as) := by
  intro n t ht
  have hle : n + width [c] ≤ t.offset := le_offset_of_mem_place (List.mem_of_mem_head? ht)
  have hpos := c.utf8Size_pos
  rw [width_cons] at hle
  omega

theorem reads_sequenceClause (k : SequenceClause) (s : Sequence) (h : Detached more) :
    Reads d (sequenceClause s) (blank ' ' :: k.atoms) (some (k.apply s)) more := by
  refine Reads.blank ' ' ?_
  cases k with
  | startWith v =>
    refine Reads.peek fun _ => Reads.bind (l := [word "START".toList])
      (r := blank ' ' :: (spell ["WITH"] ++ blank ' ' :: ofInt v.toInt)) (reads_advance_word _ _)
      (Reads.blank ' ' ?_)
    refine Reads.bind (reads_eatWords ["WITH"] _).discard (Reads.blank ' ' ?_)
    exact Reads.bind_pure (reads_signedNumber v h) (Reads.pure _ more)
  | incrementBy v =>
    refine Reads.peek fun _ => Reads.bind (l := [word "INCREMENT".toList])
      (r := blank ' ' :: (spell ["BY"] ++ blank ' ' :: ofInt v.toInt)) (reads_advance_word _ _)
      (Reads.blank ' ' ?_)
    refine Reads.bind (reads_eatWords ["BY"] _).discard (Reads.blank ' ' ?_)
    exact Reads.bind_pure (reads_signedNumber v h) (Reads.pure _ more)
  | minValue v | maxValue v | cache v =>
    refine Reads.peek fun _ => Reads.bind (r := blank ' ' :: ofInt v.toInt)
      (reads_advance_word _ _) (Reads.blank ' ' ?_)
    exact Reads.bind_pure (reads_signedNumber v h) (Reads.pure _ more)
  | cycle =>
    exact Reads.peek fun _ => Reads.bind_pure (reads_advance_word _ more) (Reads.pure _ more)

/-- Clauses with a blank before each. -/
def Atom.sequenceClauses (ks : List SequenceClause) : List Atom :=
  ks.flatMap fun k => blank ' ' :: k.atoms

/-- The clauses that make a sequence of the one that has its name only. -/
def Sequence.clauses (s : Sequence) : List SequenceClause :=
  [.startWith s.startValue, .incrementBy s.incrementBy] ++ (s.minValue.map .minValue).toList ++
    (s.maxValue.map .maxValue).toList ++ (s.cache.map .cache).toList ++
    (if s.cycle then [.cycle] else [])

theorem Sequence.foldl_clauses (s : Sequence) :
    s.clauses.foldl SequenceClause.apply { name := s.name } = s := by
  obtain ⟨name, startValue, incrementBy, minValue, maxValue, cache, cycle⟩ := s
  cases minValue
  all_goals cases maxValue
  all_goals cases cache
  all_goals cases cycle
  all_goals rfl

def Atom.sequence (d : Dialect) (s : Sequence) : List Atom :=
  word "SEQUENCE".toList :: blank ' ' :: Atom.name d s.name :: Atom.sequenceClauses s.clauses

theorem reads_sequenceDefinition (d : Dialect) (s : Sequence) :
    Reads d sequenceDefinition (Atom.sequence d s) s [] := by
  have hclauses : Reads d (many sequenceClause { name := s.name }) (Atom.sequenceClauses s.clauses)
      (s.clauses.foldl SequenceClause.apply { name := s.name }) [] :=
    Reads.many_flatMap (P := Detached) (fun k _ s more h => reads_sequenceClause k s h)
      (fun k _ more => detached_blank ' ' _) (fun k _ => by cases k with | _ => exact List.cons_ne_nil _ _)
      (fun s => Reads.peek fun _ => Reads.pure none []) (fun _ _ ht => absurd ht (by simp [place])) _
  rw [s.foldl_clauses] at hclauses
  refine Reads.bind (l := spell ["SEQUENCE"]) (reads_expectWords _ _) (Reads.blank ' ' ?_)
  refine Reads.bind_nil (reads_ifNotExists d s.name rfl (fun _ => rfl) _).discard ?_
  refine Reads.bind (l := [Atom.name d s.name]) (reads_objectName d s.name ?_) hclauses
  exact Follows.blank (follows_word (fun _ => rfl) _) ' '

end DdlBridge
