import DdlBridge.Stream.Aggregator

/-!
# Fragments end up in order

Whatever the order in which fragments arrive, the aggregator holds the fragments below `next`
appended in the order of their indices, and the rest waits (`Collects`). Once every index below a
number has arrived, and no other, the schema is complete (`Collects.finish_eq`).
-/

namespace DdlBridge.Aggregator

/-- The first `n` fragments in order. -/
def inOrder (fragment : Nat → Schema) (n : Nat) : Schema :=
  (List.range n).foldl (fun schema i => schema.append (fragment i)) {}

variable {fragment : Nat → Schema} {received : List Nat} {a : Aggregator} {i : Nat}

theorem inOrder_succ (fragment : Nat → Schema) (n : Nat) :
    inOrder fragment (n + 1) = (inOrder fragment n).append (fragment n) := by
  simp only [inOrder, List.range_succ, List.foldl_append, List.foldl_cons, List.foldl_nil]

theorem drain_of_none (h : a.pending.find? (·.1 == a.next) = none) : a.drain = a := by
  rw [drain.eq_def]
  split
  case h_1 hsome => rw [h] at hsome; exact absurd hsome (by simp)
  case h_2 => rfl

theorem drain_of_some {p : Nat × Schema} (h : a.pending.find? (·.1 == a.next) = some p) :
    a.drain = (a.append p.2).drain := by
  rw [drain.eq_def]
  split
  case h_1 hsome =>
    obtain rfl := Option.some.inj (h.symm.trans hsome)
    rfl
  case h_2 hnone => rw [h] at hnone; exact absurd hnone (by simp)

/-- The aggregator holds the fragments of the indices `received`. -/
structure Collects (fragment : Nat → Schema) (received : List Nat) (a : Aggregator) : Prop where
  schema : a.schema = inOrder fragment a.next
  pending : ∀ p ∈ a.pending, p.2 = fragment p.1 ∧ a.next ≤ p.1
  received : ∀ i, i ∈ received ↔ i < a.next ∨ ∃ p ∈ a.pending, p.1 = i

theorem Collects.init (fragment : Nat → Schema) : Collects fragment [] {} where
  schema := rfl
  pending := by simp
  received := by simp

/-- Nothing that is due waits. -/
def Drained (a : Aggregator) : Prop := ∀ p ∈ a.pending, p.1 ≠ a.next

theorem Collects.append {p : Nat × Schema} (h : Collects fragment received a)
    (hp : a.pending.find? (·.1 == a.next) = some p) : Collects fragment received (a.append p.2) := by
  have hmem := List.mem_of_find?_eq_some hp
  have hnext : p.1 = a.next := by simpa using List.find?_some hp
  have hfragment : p.2 = fragment a.next := hnext ▸ (h.pending p hmem).1
  refine ⟨?_, fun q hq => ?_, fun i => ?_⟩
  · rw [Aggregator.append, inOrder_succ, ← h.schema, hfragment]
  · simp only [Aggregator.append, List.mem_filter, bne_iff_ne] at hq ⊢
    obtain ⟨hvalue, hle⟩ := h.pending q hq.1
    exact ⟨hvalue, by omega⟩
  · rw [h.received]
    simp only [Aggregator.append, List.mem_filter, bne_iff_ne]
    constructor
    · rintro (hlt | ⟨q, hq, rfl⟩)
      · exact .inl (by omega)
      · by_cases hdue : q.1 = a.next
        · exact .inl (by omega)
        · exact .inr ⟨q, ⟨hq, hdue⟩, rfl⟩
    · rintro (hlt | ⟨q, hq, rfl⟩)
      · by_cases hdue : i = a.next
        · exact .inr ⟨p, hmem, hnext.trans hdue.symm⟩
        · exact .inl (by omega)
      · exact .inr ⟨q, hq.1, rfl⟩

theorem Collects.drain (h : Collects fragment received a) :
    Collects fragment received a.drain ∧ Drained a.drain := by
  induction a using Aggregator.drain.induct with
  | case1 a index next hfind ih hih =>
    rw [drain_of_some hfind]
    exact hih (h.append hfind)
  | case2 a hfind =>
    rw [drain_of_none hfind]
    refine ⟨h, fun p hp hdue => ?_⟩
    have hnot := List.find?_eq_none.1 hfind p hp
    exact hnot (by simpa using hdue)

/-- A fragment that has not arrived yet is taken. -/
theorem Collects.accept (h : Collects fragment received a) (hi : i ∉ received) : ∃ a',
    a.accept i (.ok (fragment i)) = .ok a' ∧ Collects fragment (i :: received) a' ∧ Drained a' := by
  have hnew : ¬ (i < a.next ∨ ∃ p ∈ a.pending, p.1 = i) := fun hold => hi ((h.received i).2 hold)
  have hnot : ¬ (i < a.next ∨ a.pending.any (·.1 == i) = true) := by
    simpa only [List.any_eq_true, beq_iff_eq] using hnew
  have hadd : Collects fragment (i :: received) { a with pending := (i, fragment i) :: a.pending } := by
    refine ⟨h.schema, fun p hp => ?_, fun j => ?_⟩
    · rcases List.mem_cons.1 hp with rfl | hp
      · exact ⟨rfl, by simp only; omega⟩
      · exact h.pending p hp
    · simp only [List.mem_cons, h.received, exists_eq_or_imp]
      constructor
      · rintro (rfl | hlt | hp)
        · exact .inr (.inl rfl)
        · exact .inl hlt
        · exact .inr (.inr hp)
      · rintro (hlt | rfl | hp)
        · exact .inr (.inl hlt)
        · exact .inl rfl
        · exact .inr (.inr hp)
  refine ⟨_, ?_, hadd.drain⟩
  simp only [Aggregator.accept, bind, Except.bind, pure, Except.pure]
  rw [if_neg hnot]

/-- A failure is not taken. -/
theorem exists_of_accept_eq_ok {outcome : Except Error Schema} {a' : Aggregator}
    (h : a.accept i outcome = .ok a') : ∃ schema, outcome = .ok schema := by
  cases outcome with
  | ok schema => exact ⟨schema, rfl⟩
  | error e => exact absurd h (by simp [Aggregator.accept, bind, Except.bind])

/-- Once the indices below `n` have arrived, and no other, the schema is complete. -/
theorem Collects.finish_eq {n : Nat} (h : Collects fragment received a) (hdrained : Drained a)
    (hall : ∀ i, i ∈ received ↔ i < n) : a.finish n = .ok (inOrder fragment n) := by
  have hdue : a.next ∉ received := by
    rw [h.received]
    rintro (hlt | ⟨p, hp, heq⟩)
    · omega
    · exact hdrained p hp heq
  have hle : n ≤ a.next := by
    rw [hall] at hdue
    omega
  have hpending : a.pending = [] := by
    rw [List.eq_nil_iff_forall_not_mem]
    intro p hp
    have hlt := (hall p.1).1 ((h.received p.1).2 (.inr ⟨p, hp, rfl⟩))
    have := (h.pending p hp).2
    omega
  have hnext : a.next = n := by
    have hge : ¬ n < a.next := fun hlt => by
      have := (hall n).1 ((h.received n).2 (.inl hlt))
      omega
    omega
  rw [finish, hpending, hnext, h.schema, hnext]
  exact if_pos ⟨rfl, rfl⟩

/-- The fragment that is due is appended at once. -/
theorem accept_due (schema fragment : Schema) (next : Nat) :
    accept { schema, next } next (.ok fragment) =
      .ok { schema := schema.append fragment, next := next + 1 } := by
  have hdrain : drain { schema, next, pending := [(next, fragment)] } =
      { schema := schema.append fragment, next := next + 1 } := by
    rw [drain_of_some (p := (next, fragment)) (by simp), drain_of_none (by simp [Aggregator.append])]
    simp [Aggregator.append]
  simp only [accept, bind, Except.bind, pure, Except.pure]
  rw [if_neg (by simp)]
  exact congrArg Except.ok hdrain

end DdlBridge.Aggregator
