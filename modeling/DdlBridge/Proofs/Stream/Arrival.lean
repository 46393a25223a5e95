import DdlBridge.Proofs.Stream.Aggregator
import Mathlib.Data.List.Induction
import Mathlib.Data.List.Nodup
import Mathlib.Data.List.Perm.Basic
import Mathlib.Order.Bounds.Basic

/-!
# Fragments in any order of arrival

Fragments with their indices are accepted one after another. They are all accepted when no index is
repeated, and the first repetition is the one refused (`acceptAll_eq_error_iff`). What has been
accepted is complete exactly when its indices are those below some number, in whatever order
(`acceptAll_finish_iff`).
-/

namespace DdlBridge.Aggregator

variable {fragment : Nat → Schema} {received : List Nat} {a : Aggregator} {i : Nat}

/-- Accepts fragments with their indices, up to the first that is refused. -/
def acceptAll (a : Aggregator) (results : List (Nat × Schema)) : Except Error Aggregator :=
  results.foldlM (fun a r => a.accept r.1 (.ok r.2)) a

/-- The indices of results. -/
abbrev indices (results : List (Nat × Schema)) : List Nat := results.map Prod.fst

/-- The first fragment with an index. -/
def reported (results : List (Nat × Schema)) (i : Nat) : Schema := (results.lookup i).getD {}

theorem reported_of_mem {results : List (Nat × Schema)} (h : (indices results).Nodup)
    {r : Nat × Schema} (hr : r ∈ results) : reported results r.1 = r.2 := by
  induction results with
  | nil => exact absurd hr List.not_mem_nil
  | cons head rest ih =>
    obtain ⟨i, schema⟩ := head
    obtain ⟨hnew, hrest⟩ := List.nodup_cons.1 h
    obtain rfl | hlater := List.mem_cons.1 hr
    · simp only [reported, List.lookup_cons_self, Option.getD_some]
    · have hseen : r.1 ∈ indices rest := List.mem_map_of_mem hlater
      have hne : (r.1 == i) = false := by
        rw [beq_eq_false_iff_ne]
        rintro rfl
        exact hnew hseen
      have hskip : reported ((i, schema) :: rest) r.1 = reported rest r.1 := by
        simp only [reported, List.lookup_cons, hne]
      rw [hskip, ih hrest hlater]

/-! ### One result -/

/-- An index is refused when it has been received, whatever comes with it. -/
theorem Collects.accept_eq_error_iff (h : Collects fragment received a) {schema : Schema} {e : Error} :
    a.accept i (.ok schema) = .error e ↔
      i ∈ received ∧ e = .internal s!"batch {i} reported twice" := by
  have hseen : (i < a.next ∨ a.pending.any (·.1 == i) = true) ↔ i ∈ received := by
    rw [h.received]
    simp only [List.any_eq_true, beq_iff_eq]
  simp only [Aggregator.accept, bind, Except.bind, pure, Except.pure]
  rw [← hseen]
  split
  case isTrue hold =>
    constructor
    · intro herror
      exact ⟨hold, (Except.error.inj herror).symm⟩
    · rintro ⟨-, rfl⟩
      rfl
  case isFalse hnew =>
    constructor
    · intro herror
      exact absurd herror (by simp)
    · rintro ⟨hold, -⟩
      exact absurd hold hnew

/-- What is merged ends where the first index is missing. -/
theorem Collects.isGreatest_next (h : Collects fragment received a) (hdrained : Drained a) :
    IsGreatest {n | ∀ i < n, i ∈ received} a.next := by
  constructor
  · intro i hi
    exact (h.received i).2 (.inl hi)
  · intro n hn
    by_contra hlt
    obtain hbelow | ⟨p, hp, hdue⟩ := (h.received a.next).1 (hn a.next (by omega))
    · omega
    · exact hdrained p hp hdue

/-- Only the indices below a number make a complete schema of that many fragments. -/
theorem Collects.of_finish_eq {n : Nat} {schema : Schema} (h : Collects fragment received a)
    (hfinish : a.finish n = .ok schema) :
    (∀ i, i ∈ received ↔ i < n) ∧ schema = inOrder fragment n := by
  rw [finish] at hfinish
  split at hfinish
  case isTrue hdone =>
    obtain ⟨rfl, hempty⟩ := hdone
    have hpending : a.pending = [] := List.isEmpty_iff.1 hempty
    refine ⟨fun i => ?_, ?_⟩
    · rw [h.received, hpending]
      simp
    · rw [← h.schema]
      exact (Except.ok.inj hfinish).symm
  case isFalse => exact absurd hfinish (by simp)

/-! ### One result after another -/

theorem acceptAll_append (a : Aggregator) (front back : List (Nat × Schema)) :
    a.acceptAll (front ++ back) = a.acceptAll front >>= (·.acceptAll back) :=
  List.foldlM_append

/-- Results with new indices are all accepted. -/
theorem Collects.acceptAll (h : Collects fragment received a) (hdrained : Drained a)
    {results : List (Nat × Schema)} (hresults : ∀ r ∈ results, fragment r.1 = r.2)
    (hnodup : (indices results).Nodup) (hnew : ∀ r ∈ results, r.1 ∉ received) : ∃ a',
    a.acceptAll results = .ok a' ∧
      Collects fragment ((indices results).reverse ++ received) a' ∧ Drained a' := by
  induction results generalizing received a with
  | nil => exact ⟨a, rfl, h, hdrained⟩
  | cons r rest ih =>
    obtain ⟨hother, hrest⟩ := List.nodup_cons.1 hnodup
    obtain ⟨a₁, haccept, hcollects, hdrained₁⟩ := h.accept (hnew r List.mem_cons_self)
    rw [hresults r List.mem_cons_self] at haccept
    have hnew₁ : ∀ q ∈ rest, q.1 ∉ r.1 :: received := by
      intro q hq hmem
      obtain heq | hmem := List.mem_cons.1 hmem
      · exact hother (heq ▸ List.mem_map_of_mem hq)
      · exact hnew q (List.mem_cons_of_mem _ hq) hmem
    obtain ⟨a', hall, hcollects', hdrained'⟩ := ih hcollects hdrained₁
      (fun q hq => hresults q (List.mem_cons_of_mem _ hq)) hrest hnew₁
    refine ⟨a', ?_, ?_, hdrained'⟩
    · rw [Aggregator.acceptAll, List.foldlM_cons, haccept]
      exact hall
    · simpa using hcollects'

/-- A new aggregator accepts results without a repeated index. -/
theorem exists_acceptAll {results : List (Nat × Schema)} (h : (indices results).Nodup) : ∃ a,
    acceptAll {} results = .ok a ∧
      Collects (reported results) (indices results).reverse a ∧ Drained a := by
  have hempty : Drained {} := by simp [Drained]
  obtain ⟨a, hall, hcollects, hdrained⟩ := (Collects.init (reported results)).acceptAll hempty
    (fun r hr => reported_of_mem h hr) h (by simp)
  exact ⟨a, hall, by simpa using hcollects, hdrained⟩

/-- Where an index is repeated, one is repeated first. -/
theorem exists_first_repeated {results : List (Nat × Schema)} (h : ¬ (indices results).Nodup) :
    ∃ front r back, results = front ++ r :: back ∧ (indices front).Nodup ∧
      r.1 ∈ indices front := by
  induction results using List.reverseRecOn with
  | nil => exact absurd List.nodup_nil h
  | append_singleton front r ih =>
    by_cases hfront : (indices front).Nodup
    · refine ⟨front, r, [], rfl, hfront, ?_⟩
      by_contra hnew
      refine h ?_
      rw [indices, List.map_append, List.map_singleton, ← List.concat_eq_append]
      exact List.Nodup.concat hnew hfront
    · obtain ⟨front', r', back, rfl, hnodup, hmem⟩ := ih hfront
      exact ⟨front', r', back ++ [r], by simp, hnodup, hmem⟩

theorem acceptAll_eq_error {front back : List (Nat × Schema)} {r : Nat × Schema}
    (hfront : (indices front).Nodup) (hr : r.1 ∈ indices front) :
    acceptAll {} (front ++ r :: back) = .error (.internal s!"batch {r.1} reported twice") := by
  obtain ⟨a, hall, hcollects, -⟩ := exists_acceptAll hfront
  have hrefused : a.accept r.1 (.ok r.2) = .error (.internal s!"batch {r.1} reported twice") :=
    hcollects.accept_eq_error_iff.2 ⟨List.mem_reverse.2 hr, rfl⟩
  rw [acceptAll_append, hall]
  show a.acceptAll (r :: back) = _
  rw [acceptAll, List.foldlM_cons, hrefused]
  rfl

/-- What is refused is the first index that is repeated. -/
theorem acceptAll_eq_error_iff {results : List (Nat × Schema)} {e : Error} :
    acceptAll {} results = .error e ↔ ∃ front r back, results = front ++ r :: back ∧
      (indices front).Nodup ∧ r.1 ∈ indices front ∧
      e = .internal s!"batch {r.1} reported twice" := by
  constructor
  · intro herror
    by_cases hnodup : (indices results).Nodup
    · obtain ⟨a, hall, -⟩ := exists_acceptAll hnodup
      rw [hall] at herror
      exact absurd herror (by simp)
    · obtain ⟨front, r, back, rfl, hfront, hr⟩ := exists_first_repeated hnodup
      rw [acceptAll_eq_error hfront hr] at herror
      exact ⟨front, r, back, rfl, hfront, hr, (Except.error.inj herror).symm⟩
  · rintro ⟨front, r, back, rfl, hfront, hr, rfl⟩
    exact acceptAll_eq_error hfront hr

theorem nodup_of_acceptAll {results : List (Nat × Schema)} (h : acceptAll {} results = .ok a) :
    (indices results).Nodup := by
  by_contra hnodup
  obtain ⟨front, r, back, rfl, hfront, hr⟩ := exists_first_repeated hnodup
  rw [acceptAll_eq_error hfront hr] at h
  exact absurd h (by simp)

/-- Results make a complete schema when their indices are those below the expected number. -/
theorem acceptAll_finish_iff {results : List (Nat × Schema)} {n : Nat} {schema : Schema} :
    (∃ a, acceptAll {} results = .ok a ∧ a.finish n = .ok schema) ↔
      (indices results).Perm (List.range n) ∧ schema = inOrder (reported results) n := by
  constructor
  · rintro ⟨a, hall, hfinish⟩
    have hnodup := nodup_of_acceptAll hall
    obtain ⟨a', hall', hcollects, -⟩ := exists_acceptAll hnodup
    obtain rfl : a = a' := Except.ok.inj (hall.symm.trans hall')
    obtain ⟨hmem, hschema⟩ := hcollects.of_finish_eq hfinish
    refine ⟨?_, hschema⟩
    rw [List.perm_ext_iff_of_nodup hnodup List.nodup_range]
    intro i
    rw [List.mem_range, ← hmem, List.mem_reverse]
  · rintro ⟨hperm, rfl⟩
    obtain ⟨a, hall, hcollects, hdrained⟩ := exists_acceptAll (hperm.nodup_iff.2 List.nodup_range)
    refine ⟨a, hall, hcollects.finish_eq hdrained fun i => ?_⟩
    rw [List.mem_reverse, hperm.mem_iff, List.mem_range]

/-- Fragments are accepted in any order of their indices, up to the first index that is repeated.
What is accepted is merged as far as its indices go without a gap, and makes a complete schema when
the indices are those below the expected number. -/
theorem accepts_any_order (results : List (Nat × Schema)) :
    (∀ n schema, (∃ a, acceptAll {} results = .ok a ∧ a.finish n = .ok schema) ↔
      (indices results).Perm (List.range n) ∧ schema = inOrder (reported results) n) ∧
    (∀ e, acceptAll {} results = .error e ↔ ∃ front r back, results = front ++ r :: back ∧
      (indices front).Nodup ∧ r.1 ∈ indices front ∧
      e = .internal s!"batch {r.1} reported twice") ∧
    (∀ a, acceptAll {} results = .ok a →
      IsGreatest {n | ∀ i < n, i ∈ indices results} a.next ∧
      a.schema = inOrder (reported results) a.next) := by
  refine ⟨fun n schema => acceptAll_finish_iff, fun e => acceptAll_eq_error_iff, ?_⟩
  intro a hall
  obtain ⟨a', hall', hcollects, hdrained⟩ := exists_acceptAll (nodup_of_acceptAll hall)
  obtain rfl : a = a' := Except.ok.inj (hall.symm.trans hall')
  refine ⟨?_, hcollects.schema⟩
  have hnext := hcollects.isGreatest_next hdrained
  simp only [List.mem_reverse] at hnext
  exact hnext

/-- Three fragments, the last of them first. -/
theorem accepts_any_order_last_first :
    let results : List (Nat × Schema) := [(2, { sequences := [{ name := "c" }] }),
      (0, { sequences := [{ name := "a" }] }), (1, { sequences := [{ name := "b" }] })]
    ∃ a, acceptAll {} results = .ok a ∧ a.next = 3 ∧
      a.finish 3 = .ok { sequences := [{ name := "a" }, { name := "b" }, { name := "c" }] } := by
  intro results
  obtain ⟨hcomplete, -, haccepted⟩ := accepts_any_order results
  obtain ⟨a, hall, hfinish⟩ := (hcomplete 3 _).2 ⟨by decide, rfl⟩
  have hrun : ∀ i < 3, i ∈ indices results := by decide
  have hgreatest : IsGreatest {n | ∀ i < n, i ∈ indices results} 3 := by
    refine ⟨hrun, fun n hn => ?_⟩
    by_contra hlt
    exact absurd (hn 3 (by omega)) (by decide)
  exact ⟨a, hall, (haccepted a hall).1.unique hgreatest, hfinish⟩

end DdlBridge.Aggregator
