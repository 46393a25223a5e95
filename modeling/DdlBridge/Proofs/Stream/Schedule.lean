import DdlBridge.Proofs.Stream.Aggregator
import DdlBridge.Stream.Schedule
import Mathlib.Data.List.Perm.Basic
import Mathlib.Logic.Relation

/-!
# Scheduling does not change what a call returns

Every batch that was sent is in one place: in a channel, with a worker or with the aggregator
(`Consistent`). So whichever way the tasks are interleaved, a call of which everything succeeds
returns all the fragments in order, and any other call one of its failures. No task waits for ever
and no schedule goes on for ever.
-/

namespace DdlBridge

open Aggregator Relation

namespace Work

/-- What batch `i` adds to the schema. -/
def fragment (work : Work) (i : Nat) : Schema :=
  match work.outcome i with
  | .ok schema => schema
  | .error _ => {}

def Succeeds (work : Work) : Prop :=
  work.failure = none ∧ ∀ i < work.count, ∃ schema, work.outcome i = .ok schema

/-- `e` is the error of a batch or of the batcher. -/
def Fails (work : Work) (e : Error) : Prop :=
  work.failure = some e ∨ ∃ i < work.count, work.outcome i = .error e

theorem not_succeeds_of_fails {work : Work} {e : Error} (h : work.Fails e) : ¬ work.Succeeds := by
  rintro ⟨hfailure, hok⟩
  rcases h with h | ⟨i, hi, h⟩
  · rw [hfailure] at h
    exact absurd h (by simp)
  · obtain ⟨schema, hschema⟩ := hok i hi
    rw [h] at hschema
    exact absurd hschema (by simp)

theorem ending_of_error {work : Work} {e : Error} (h : work.ending = .error e) : work.Fails e := by
  unfold ending at h
  split at h
  case h_1 e' hfailure =>
    obtain rfl := Except.error.inj h
    exact .inl hfailure
  case h_2 => exact absurd h (by simp)

theorem ending_of_ok {work : Work} {count : Nat} (h : work.ending = .ok count) :
    work.failure = none ∧ count = work.count := by
  unfold ending at h
  split at h
  case h_1 => exact absurd h (by simp)
  case h_2 hfailure => exact ⟨hfailure, (Except.ok.inj h).symm⟩

end Work

namespace Schedule

variable {work : Work} {s t : State} {received : List Nat}

/-! ### Where the batches are -/

/-- The number of batches sent. -/
def sent (work : Work) : Sender → Nat
  | .sending next => next
  | _ => work.count

/-- What a worker has taken and not handed over. -/
def Worker.held : Worker → List Nat
  | .parsing i => [i]
  | .reporting r => [r.index]
  | _ => []

def Worker.Stopped (worker : Worker) : Prop := worker = .exited ∨ worker = .joined

/-- The batches that were sent and have not come back. -/
def State.underway (s : State) : List Nat :=
  s.queue ++ s.workers.flatMap Worker.held ++ s.reports.map (·.index)

/-- A report of a failure waits to be taken. -/
def State.Alarmed (s : State) : Prop := ∃ r ∈ s.reports, ∃ e, r.outcome = .error e

/-- The batcher is gone, and nothing is left to take. -/
def State.Dry (s : State) : Prop := (∀ i, s.sender ≠ .sending i) ∧ s.queue = []

/-- The aggregator holds the batches `received`, and all the others sent are underway. -/
structure Consistent (work : Work) (received : List Nat) (s : State) : Prop where
  collects : Collects work.fragment received s.aggregator
  drained : Drained s.aggregator
  parsed : ∀ i ∈ received, ∃ schema, work.outcome i = .ok schema
  bounded : sent work s.sender ≤ work.count
  placed : (s.underway ++ received).Perm (List.range (sent work s.sender))
  reports : ∀ r ∈ s.reports, r.outcome = work.outcome r.index
  reporting : ∀ r, .reporting r ∈ s.workers → r.outcome = work.outcome r.index
  ending : ∀ ending, s.sender = .exited ending → ending = work.ending
  joined : s.sender = .joined → work.failure = none ∧ s.expected = some work.count
  stopped : ∀ worker ∈ s.workers, worker.Stopped → s.Alarmed ∨ s.Dry

theorem consistent_init (work : Work) (workers : Nat) : Consistent work [] (init workers) where
  collects := .init _
  drained := by simp [Drained, init]
  parsed := by simp
  bounded := Nat.zero_le _
  placed := by
    have hheld : (init workers).workers.flatMap Worker.held = [] := by
      simp [init, Worker.held]
    rw [State.underway, hheld]
    exact .refl _
  reports := by simp [init]
  reporting := by simp [init]
  ending := by simp [init]
  joined := by simp [init]
  stopped := by
    intro worker hworker hstopped
    obtain rfl := List.eq_of_mem_replicate hworker
    simp [Worker.Stopped] at hstopped

theorem Consistent.nodup (h : Consistent work received s) : (s.underway ++ received).Nodup :=
  h.placed.nodup_iff.2 List.nodup_range

/-- A batch that has been reported is not with the aggregator. -/
theorem Consistent.not_mem_received (h : Consistent work received s) {r : Report}
    (hr : r ∈ s.reports) : r.index ∉ received := by
  obtain ⟨-, -, hdisjoint⟩ := List.nodup_append.1 h.nodup
  have hmem : r.index ∈ s.underway := List.mem_append_right _ (List.mem_map_of_mem hr)
  exact fun hreceived => hdisjoint _ hmem _ hreceived rfl

theorem Consistent.lt_count (h : Consistent work received s) {i : Nat} (hi : i ∈ s.underway) :
    i < work.count := by
  have hlt := List.mem_range.1 (h.placed.subset (List.mem_append_left _ hi))
  exact Nat.lt_of_lt_of_le hlt h.bounded

/-- The aggregator takes every fragment that is reported. -/
theorem Consistent.accept (h : Consistent work received s) {r : Report} (hr : r ∈ s.reports)
    {schema : Schema} (hschema : r.outcome = .ok schema) : ∃ a,
      s.aggregator.accept r.index r.outcome = .ok a ∧
        Collects work.fragment (r.index :: received) a ∧ Drained a := by
  have hfragment : work.fragment r.index = schema := by
    rw [Work.fragment, ← h.reports r hr, hschema]
  rw [hschema, ← hfragment]
  exact h.collects.accept (h.not_mem_received hr)

/-! ### Steps -/

theorem flatMap_held (front back : List Worker) (worker : Worker) :
    (front ++ worker :: back).flatMap Worker.held =
      front.flatMap Worker.held ++ (worker.held ++ back.flatMap Worker.held) := by
  rw [List.flatMap_append, List.flatMap_cons]

theorem held_following (r : Report) : (Worker.following r).held = [] := by
  unfold Worker.following
  split <;> rfl

/-- One worker moves, and what it does not report it does not report later either. -/
theorem reporting_of_moved {front back : List Worker} {worker worker' : Worker}
    (hold : ∀ r, .reporting r ∈ front ++ worker :: back → r.outcome = work.outcome r.index)
    (hnew : ∀ r, worker' = .reporting r → r.outcome = work.outcome r.index) :
    ∀ r, .reporting r ∈ front ++ worker' :: back → r.outcome = work.outcome r.index := by
  intro r hr
  rcases List.mem_append.1 hr with hr | hr
  · exact hold r (List.mem_append_left _ hr)
  · rcases List.mem_cons.1 hr with hr | hr
    · exact hnew r hr.symm
    · exact hold r (List.mem_append_right _ (List.mem_cons_of_mem _ hr))

/-- One worker moves, and the others stand where they stood. -/
theorem stopped_of_moved {front back : List Worker} {worker worker' : Worker} {P Q : Prop}
    (hold : ∀ w ∈ front ++ worker :: back, w.Stopped → P) (himp : P → Q)
    (hnew : worker'.Stopped → Q) : ∀ w ∈ front ++ worker' :: back, w.Stopped → Q := by
  intro w hw hstopped
  rcases List.mem_append.1 hw with hw | hw
  · exact himp (hold w (List.mem_append_left _ hw) hstopped)
  · rcases List.mem_cons.1 hw with rfl | hw
    · exact hnew hstopped
    · exact himp (hold w (List.mem_append_right _ (List.mem_cons_of_mem _ hw)) hstopped)

theorem Consistent.send {i : Nat} (h : Consistent work received s)
    (hsender : s.sender = .sending i) (hmore : i < work.count) :
    Consistent work received
      { s with sender := .sending (i + 1), queue := s.queue ++ [i] } := by
  refine { h with
    bounded := hmore
    placed := ?_
    ending := by simp
    joined := by simp
    stopped := fun worker hworker hstopped => .inl ?_ }
  · rw [List.perm_iff_count]
    intro j
    have hcount := h.placed.count_eq j
    simp only [State.underway, sent, hsender, List.range_succ, List.count_append] at hcount ⊢
    omega
  · rcases h.stopped worker hworker hstopped with halarmed | hdry
    · exact halarmed
    · exact absurd hsender (hdry.1 i)

theorem Consistent.finish (h : Consistent work received s)
    (hsender : s.sender = .sending work.count) :
    Consistent work received { s with sender := .exited work.ending } := by
  have hplaced := h.placed
  rw [hsender] at hplaced
  refine { h with
    bounded := Nat.le_refl _
    placed := hplaced
    ending := fun ending hending => (Sender.exited.inj hending).symm
    joined := by simp
    stopped := fun worker hworker hstopped => .inl ?_ }
  rcases h.stopped worker hworker hstopped with halarmed | hdry
  · exact halarmed
  · exact absurd hsender (hdry.1 _)

theorem Consistent.take {front back : List Worker} {i : Nat} {queue : List Nat}
    (h : Consistent work received s) (hworkers : s.workers = front ++ .idle :: back)
    (hqueue : s.queue = i :: queue) :
    Consistent work received { s with workers := front ++ .parsing i :: back, queue } := by
  refine { h with
    placed := ?_
    reporting := reporting_of_moved (hworkers ▸ h.reporting) (by simp)
    stopped := stopped_of_moved (hworkers ▸ h.stopped) ?_ (by simp [Worker.Stopped]) }
  · rw [List.perm_iff_count]
    intro j
    have hcount := h.placed.count_eq j
    simp only [State.underway, hworkers, hqueue, flatMap_held, Worker.held, List.count_append,
      List.count_cons, List.count_nil] at hcount ⊢
    omega
  · rintro (halarmed | hdry)
    · exact .inl halarmed
    · rw [State.Dry, hqueue] at hdry
      exact absurd hdry.2 (by simp)

theorem Consistent.parse {front back : List Worker} {i : Nat} (h : Consistent work received s)
    (hworkers : s.workers = front ++ .parsing i :: back) :
    Consistent work received
      { s with workers := front ++ .reporting ⟨i, work.outcome i⟩ :: back } := by
  have hplaced := h.placed
  simp only [State.underway, hworkers, flatMap_held] at hplaced
  refine { h with
    placed := ?_
    reporting := reporting_of_moved (hworkers ▸ h.reporting) ?_
    stopped := stopped_of_moved (hworkers ▸ h.stopped) id (by simp [Worker.Stopped]) }
  · simp only [State.underway, flatMap_held]
    exact hplaced
  · rintro _ ⟨⟩
    rfl

theorem Consistent.report {front back : List Worker} {r : Report} (h : Consistent work received s)
    (hworkers : s.workers = front ++ .reporting r :: back) :
    Consistent work received
      { s with workers := front ++ Worker.following r :: back, reports := s.reports ++ [r] } := by
  have hr : r.outcome = work.outcome r.index := by
    refine h.reporting r ?_
    rw [hworkers]
    exact List.mem_append_right _ List.mem_cons_self
  refine { h with
    placed := ?_
    reports := ?_
    reporting := reporting_of_moved (hworkers ▸ h.reporting) ?_
    stopped := stopped_of_moved (hworkers ▸ h.stopped) (Or.imp_left ?_) ?_ }
  · rw [List.perm_iff_count]
    intro j
    have hcount := h.placed.count_eq j
    simp only [State.underway, hworkers, flatMap_held, held_following] at hcount ⊢
    simp only [Worker.held, List.map_append, List.map_cons, List.map_nil, List.count_append,
      List.count_nil] at hcount ⊢
    omega
  · intro r' hr'
    rcases List.mem_append.1 hr' with hr' | hr'
    · exact h.reports r' hr'
    · rw [List.mem_singleton.1 hr']
      exact hr
  · intro r' hr'
    unfold Worker.following at hr'
    split at hr' <;> exact absurd hr' (by simp)
  · rintro ⟨r', hr', hfailed⟩
    exact ⟨r', List.mem_append_left _ hr', hfailed⟩
  · intro hstopped
    unfold Worker.following at hstopped
    split at hstopped
    case h_1 => simp [Worker.Stopped] at hstopped
    case h_2 e he => exact .inl ⟨r, List.mem_append_right _ (List.mem_singleton_self r), e, he⟩

/-- A worker that holds nothing moves on to holding nothing. -/
theorem Consistent.leave {front back : List Worker} {worker worker' : Worker}
    (h : Consistent work received s) (hworkers : s.workers = front ++ worker :: back)
    (hheld : worker.held = []) (hheld' : worker'.held = [])
    (hstopped : worker'.Stopped → s.Alarmed ∨ s.Dry) (hreporting : ∀ r, worker' ≠ .reporting r) :
    Consistent work received { s with workers := front ++ worker' :: back } := by
  have hplaced := h.placed
  simp only [State.underway, hworkers, flatMap_held, hheld] at hplaced
  refine { h with
    placed := ?_
    reporting := reporting_of_moved (hworkers ▸ h.reporting) fun r hr => absurd hr (hreporting r)
    stopped := stopped_of_moved (hworkers ▸ h.stopped) id hstopped }
  simp only [State.underway, flatMap_held, hheld']
  exact hplaced

theorem Consistent.receive {front back : List Report} {r : Report} {a : Aggregator}
    (h : Consistent work received s) (hreports : s.reports = front ++ r :: back)
    (haccept : s.aggregator.accept r.index r.outcome = .ok a) :
    Consistent work (r.index :: received) { s with reports := front ++ back, aggregator := a } := by
  have hr : r ∈ s.reports := by
    rw [hreports]
    exact List.mem_append_right _ List.mem_cons_self
  have hsub : front ++ back ⊆ s.reports := by
    rw [hreports]
    exact ((List.sublist_cons_self r back).append_left front).subset
  obtain ⟨schema, hschema⟩ := Aggregator.exists_of_accept_eq_ok haccept
  obtain ⟨a', haccept', hcollects, hdrained⟩ := h.accept hr hschema
  obtain rfl := Except.ok.inj (haccept.symm.trans haccept')
  refine { h with
    collects := hcollects
    drained := hdrained
    parsed := ?_
    placed := ?_
    reports := fun r' hr' => h.reports r' (hsub hr')
    stopped := fun worker hworker hstopped => (h.stopped worker hworker hstopped).imp_left ?_ }
  · intro i hi
    rcases List.mem_cons.1 hi with rfl | hi
    · exact ⟨schema, (h.reports r hr).symm.trans hschema⟩
    · exact h.parsed i hi
  · rw [List.perm_iff_count]
    intro j
    have hcount := h.placed.count_eq j
    simp only [State.underway, hreports, List.map_append, List.map_cons, List.count_append,
      List.count_cons] at hcount ⊢
    omega
  · rintro ⟨r', hr', e, he⟩
    have hne : r' ≠ r := by
      rintro rfl
      rw [hschema] at he
      exact absurd he (by simp)
    rw [hreports] at hr'
    refine ⟨r', ?_, e, he⟩
    simpa [hne] using hr'

theorem Consistent.joinBatcher {count : Nat} (h : Consistent work received s)
    (hsender : s.sender = .exited (.ok count)) :
    Consistent work received { s with sender := .joined, expected := some count } := by
  obtain ⟨hfailure, rfl⟩ := Work.ending_of_ok (h.ending _ hsender).symm
  have hplaced := h.placed
  rw [hsender] at hplaced
  exact { h with
    bounded := Nat.le_refl _
    placed := hplaced
    ending := by simp
    joined := fun _ => ⟨hfailure, rfl⟩
    stopped := fun worker hworker hstopped =>
      (h.stopped worker hworker hstopped).imp_right fun hdry => ⟨by simp, hdry.2⟩ }

/-- No step loses a batch or makes a second one of it. -/
theorem Consistent.step (h : Consistent work received s) (hstep : Step work s t) :
    ∃ received', Consistent work received' t := by
  cases hstep with
  | send i hsender hmore hroom => exact ⟨received, h.send hsender hmore⟩
  | finish hsender => exact ⟨received, h.finish hsender⟩
  | take front back i queue hworkers hqueue => exact ⟨received, h.take hworkers hqueue⟩
  | parse front back i hworkers => exact ⟨received, h.parse hworkers⟩
  | report front back r hworkers hroom => exact ⟨received, h.report hworkers⟩
  | retire front back hworkers hsender hqueue =>
    exact ⟨received, h.leave hworkers rfl rfl (fun _ => .inr ⟨hsender, hqueue⟩) (by simp)⟩
  | receive front back r aggregator hreports haccept =>
    exact ⟨r.index :: received, h.receive hreports haccept⟩
  | joinBatcher count hsender => exact ⟨received, h.joinBatcher hsender⟩
  | joinWorker front back hworkers =>
    have hexited : Worker.exited ∈ s.workers := by
      rw [hworkers]
      exact List.mem_append_right _ List.mem_cons_self
    have hstopped := h.stopped _ hexited (.inl rfl)
    exact ⟨received, h.leave hworkers rfl rfl (fun _ => hstopped) (by simp)⟩

theorem length_workers (hstep : Step work s t) : t.workers.length = s.workers.length := by
  have hmoved : ∀ {front back : List Worker} {worker : Worker} (worker' : Worker),
      s.workers = front ++ worker :: back →
        (front ++ worker' :: back).length = s.workers.length := by
    intro front back worker worker' hworkers
    rw [hworkers, List.length_append, List.length_append, List.length_cons, List.length_cons]
  cases hstep with
  | send | finish | receive | joinBatcher => rfl
  | take front back i queue hworkers hqueue => exact hmoved _ hworkers
  | parse front back i hworkers => exact hmoved _ hworkers
  | report front back r hworkers hroom => exact hmoved _ hworkers
  | retire front back hworkers hsender hqueue => exact hmoved _ hworkers
  | joinWorker front back hworkers => exact hmoved _ hworkers

/-- What a call with at least one worker has come to. -/
structure Running (work : Work) (s : State) : Prop where
  consistent : ∃ received, Consistent work received s
  workers : s.workers ≠ []

theorem Running.step (h : Running work s) (hstep : Step work s t) : Running work t := by
  obtain ⟨received, hconsistent⟩ := h.consistent
  refine ⟨hconsistent.step hstep, ?_⟩
  rw [← List.length_pos_iff, length_workers hstep, List.length_pos_iff]
  exact h.workers

theorem running_of_reachable {workers : Nat} (hworkers : 0 < workers)
    (hreach : ReflTransGen (Step work) (init workers) s) : Running work s := by
  induction hreach with
  | refl =>
    refine ⟨⟨[], consistent_init work workers⟩, ?_⟩
    rw [← List.length_pos_iff, init, List.length_replicate]
    exact hworkers
  | tail hreach hstep ih => exact ih.step hstep

/-! ### The end of a call -/

/-- At the end every batch has been received, and none of them failed. -/
theorem Running.conclude (h : Running work s) (hover : s.Over) :
    work.Succeeds ∧ s.conclude = .ok (inOrder work.fragment work.count) := by
  obtain ⟨⟨received, hconsistent⟩, hworkers⟩ := h
  obtain ⟨hfailure, hexpected⟩ := hconsistent.joined hover.sender
  obtain ⟨worker, hworker⟩ := List.exists_mem_of_ne_nil _ hworkers
  have hdry : s.Dry := by
    rcases hconsistent.stopped worker hworker (.inr (hover.workers worker hworker)) with hcase | hdry
    · obtain ⟨r, hr, -⟩ := hcase
      rw [hover.reports] at hr
      exact absurd hr List.not_mem_nil
    · exact hdry
  have hheld : s.workers.flatMap Worker.held = [] := by
    rw [List.flatMap_eq_nil_iff]
    intro worker hworker
    rw [hover.workers worker hworker]
    rfl
  have hplaced := hconsistent.placed
  rw [State.underway, hdry.2, hheld, hover.reports, hover.sender] at hplaced
  have hall : ∀ i, i ∈ received ↔ i < work.count := by
    intro i
    rw [← List.mem_range]
    exact hplaced.mem_iff
  refine ⟨⟨hfailure, fun i hi => hconsistent.parsed i ((hall i).2 hi)⟩, ?_⟩
  rw [State.conclude, hexpected]
  exact hconsistent.collects.finish_eq hconsistent.drained hall

/-- A call returns all the fragments in order if everything succeeds, and a failure otherwise. -/
theorem Running.returns (h : Running work s) {result : Except Error Schema}
    (hreturns : Returns s result) :
    (work.Succeeds ∧ result = .ok (inOrder work.fragment work.count)) ∨
      ∃ e, work.Fails e ∧ result = .error e := by
  obtain ⟨received, hconsistent⟩ := h.consistent
  cases hreturns with
  | receive r e hmem haccept =>
    refine .inr ⟨e, .inr ⟨r.index, ?_, ?_⟩, rfl⟩
    · exact hconsistent.lt_count (List.mem_append_right _ (List.mem_map_of_mem hmem))
    · rw [← hconsistent.reports r hmem]
      cases houtcome : r.outcome with
      | ok schema =>
        obtain ⟨a, haccept', -⟩ := hconsistent.accept hmem houtcome
        rw [haccept] at haccept'
        exact absurd haccept' (by simp)
      | error e' =>
        rw [houtcome] at haccept
        exact congrArg Except.error (Except.error.inj haccept)
  | joinBatcher e hsender =>
    exact .inr ⟨e, Work.ending_of_error (hconsistent.ending _ hsender).symm, rfl⟩
  | finished hover =>
    obtain ⟨hsucceeds, hconclude⟩ := h.conclude hover
    exact .inl ⟨hsucceeds, hconclude⟩

/-! ### Progress -/

/-- While no report waits, a worker can move unless it has been joined or waits for a batch. -/
theorem exists_step_of_worker (hreports : s.reports = []) {worker : Worker}
    (hworker : worker ∈ s.workers) (hjoined : worker ≠ .joined) (hready : s.queue ≠ [] ∨ s.Dry) :
    ∃ t, Step work s t := by
  obtain ⟨front, back, hworkers⟩ := List.append_of_mem hworker
  cases worker with
  | idle =>
    rcases hready with hqueue | hdry
    · obtain ⟨i, queue, hqueue⟩ := List.exists_cons_of_ne_nil hqueue
      exact ⟨_, .take front back i queue hworkers hqueue⟩
    · exact ⟨_, .retire front back hworkers hdry.1 hdry.2⟩
  | parsing i => exact ⟨_, .parse front back i hworkers⟩
  | reporting r =>
    refine ⟨_, .report front back r hworkers ?_⟩
    rw [hreports, State.capacity, hworkers, List.length_append, List.length_cons, List.length_nil]
    omega
  | exited => exact ⟨_, .joinWorker front back hworkers⟩
  | joined => exact absurd rfl hjoined

/-- No call waits for ever: some task can move, or the call can return. -/
theorem Running.progress (h : Running work s) :
    (∃ t, Step work s t) ∨ ∃ result, Returns s result := by
  obtain ⟨⟨received, hconsistent⟩, hne⟩ := h
  have hcapacity : 0 < s.capacity := Nat.mul_pos (List.length_pos_iff.2 hne) Nat.two_pos
  obtain ⟨worker, hworker⟩ := List.exists_mem_of_ne_nil _ hne
  cases hreports : s.reports with
  | cons r reports =>
    cases haccept : s.aggregator.accept r.index r.outcome with
    | ok aggregator => exact .inl ⟨_, .receive [] reports r aggregator hreports haccept⟩
    | error e => exact .inr ⟨_, .receive r e (by simp [hreports]) haccept⟩
  | nil =>
    have hcalm : ¬ s.Alarmed := by
      rintro ⟨r, hr, -⟩
      rw [hreports] at hr
      exact absurd hr List.not_mem_nil
    cases hsender : s.sender with
    | sending i =>
      have hle : i ≤ work.count := by
        have hbounded := hconsistent.bounded
        rw [hsender] at hbounded
        exact hbounded
      rcases Nat.eq_or_lt_of_le hle with rfl | hlt
      · exact .inl ⟨_, .finish hsender⟩
      · by_cases hroom : s.queue.length < s.capacity
        · exact .inl ⟨_, .send i hsender hlt hroom⟩
        · -- the queue is full, and no worker has stopped
          have hqueue : s.queue ≠ [] := by
            rw [← List.length_pos_iff]
            omega
          have hjoined : worker ≠ .joined := by
            rintro rfl
            rcases hconsistent.stopped _ hworker (.inr rfl) with halarmed | hdry
            · exact hcalm halarmed
            · exact hdry.1 i hsender
          exact .inl (exists_step_of_worker hreports hworker hjoined (.inl hqueue))
    | exited ending =>
      cases ending with
      | ok count => exact .inl ⟨_, .joinBatcher count hsender⟩
      | error e => exact .inr ⟨_, .joinBatcher e hsender⟩
    | joined =>
      by_cases hall : ∀ worker ∈ s.workers, worker = .joined
      · exact .inr ⟨_, .finished ⟨hsender, hall, hreports⟩⟩
      · simp only [not_forall] at hall
        obtain ⟨worker, hworker, hjoined⟩ := hall
        refine .inl (exists_step_of_worker hreports hworker hjoined ?_)
        by_cases hqueue : s.queue = []
        · exact .inr ⟨by simp [hsender], hqueue⟩
        · exact .inl hqueue

/-! ### Every schedule ends -/

/-- The number of steps that a batch or a worker is still worth. -/
def Worker.weight : Worker → Nat
  | .idle => 2
  | .parsing _ => 5
  | .reporting _ => 4
  | .exited => 1
  | .joined => 0

def Sender.weight (work : Work) : Sender → Nat
  | .sending next => 5 * (work.count - next) + 2
  | .exited _ => 1
  | .joined => 0

def weights : List Worker → Nat
  | [] => 0
  | worker :: workers => worker.weight + weights workers

def State.weight (work : Work) (s : State) : Nat :=
  s.sender.weight work + 4 * s.queue.length + weights s.workers + s.reports.length

theorem weights_append (front back : List Worker) (worker : Worker) :
    weights (front ++ worker :: back) = weights front + (worker.weight + weights back) := by
  induction front with
  | nil => exact (Nat.zero_add _).symm
  | cons first front ih => rw [List.cons_append, weights, weights, ih, Nat.add_assoc]

theorem weight_following_le (r : Report) : (Worker.following r).weight ≤ 2 := by
  unfold Worker.following
  split <;> decide

theorem weight_lt (hstep : Step work s t) : t.weight work < s.weight work := by
  cases hstep with
  | send i hsender hmore hroom =>
    simp only [State.weight, hsender, Sender.weight, List.length_append, List.length_singleton]
    omega
  | finish hsender =>
    simp only [State.weight, hsender, Sender.weight]
    omega
  | take front back i queue hworkers hqueue =>
    simp only [State.weight, hworkers, hqueue, weights_append, Worker.weight, List.length_cons]
    omega
  | parse front back i hworkers =>
    simp only [State.weight, hworkers, weights_append, Worker.weight]
    omega
  | report front back r hworkers hroom =>
    have hle := weight_following_le r
    have hreporting : (Worker.reporting r).weight = 4 := rfl
    simp only [State.weight, hworkers, weights_append, hreporting, List.length_append,
      List.length_singleton]
    omega
  | retire front back hworkers hsender hqueue =>
    simp only [State.weight, hworkers, weights_append, Worker.weight]
    omega
  | receive front back r aggregator hreports haccept =>
    simp only [State.weight, hreports, List.length_append, List.length_cons]
    omega
  | joinBatcher count hsender =>
    simp only [State.weight, hsender, Sender.weight]
    omega
  | joinWorker front back hworkers =>
    simp only [State.weight, hworkers, weights_append, Worker.weight]
    omega

/-- No schedule goes on for ever. -/
theorem wellFounded_step (work : Work) : WellFounded fun t s : State => Step work s t :=
  Subrelation.wf weight_lt (measure (State.weight work)).wf

/-- From wherever a call has got to, it can return. -/
theorem Running.exists_returns (h : Running work s) :
    ∃ t result, ReflTransGen (Step work) s t ∧ Returns t result := by
  induction s using (wellFounded_step work).induction with
  | _ s ih =>
    rcases h.progress with ⟨t, hstep⟩ | ⟨result, hreturns⟩
    · obtain ⟨t', result, hsteps, hreturns⟩ := ih t hstep (h.step hstep)
      exact ⟨t', result, .head hstep hsteps, hreturns⟩
    · exact ⟨s, result, .refl, hreturns⟩

/-! ### Every call -/

/-- Whatever the schedule, a call of which everything succeeds returns all the fragments in order,
and any other call one of its failures: the aggregator takes every fragment, what is left at the end
is complete, and no task waits for ever. -/
theorem returns_of_schedule (work : Work) {workers : Nat} (hworkers : 0 < workers)
    (hreach : ReflTransGen (Step work) (init workers) s) :
    (∀ result, Returns s result →
      (work.Succeeds → result = .ok (inOrder work.fragment work.count)) ∧
      (¬ work.Succeeds → ∃ e, work.Fails e ∧ result = .error e)) ∧
    (∀ r ∈ s.reports, ∀ schema, r.outcome = .ok schema →
      ∃ a, s.aggregator.accept r.index r.outcome = .ok a) ∧
    (s.Over → ∃ schema, s.conclude = .ok schema) ∧
    ((∃ t, Step work s t) ∨ ∃ result, Returns s result) := by
  have hrunning := running_of_reachable hworkers hreach
  obtain ⟨received, hconsistent⟩ := hrunning.consistent
  refine ⟨fun result hreturns => ?_, fun r hr schema hschema => ?_, fun hover => ?_,
    hrunning.progress⟩
  · rcases hrunning.returns hreturns with ⟨hsucceeds, hresult⟩ | ⟨e, hfails, hresult⟩
    · exact ⟨fun _ => hresult, fun hnot => absurd hsucceeds hnot⟩
    · exact ⟨fun hsucceeds => absurd hsucceeds (Work.not_succeeds_of_fails hfails),
        fun _ => ⟨e, hfails, hresult⟩⟩
  · obtain ⟨a, haccept, -⟩ := hconsistent.accept hr hschema
    exact ⟨a, haccept⟩
  · exact ⟨_, (hrunning.conclude hover).2⟩

/-- The second of two batches comes back first. -/
theorem returns_of_schedule_overtaken :
    let view (name : String) : View := { name, definition := "SELECT 1" }
    let work : Work :=
      { count := 2, outcome := fun i => .ok { views := [view (if i = 0 then "a" else "b")] } }
    ∃ s, ReflTransGen (Step work) (init 2) s ∧ s.Over ∧
      ∀ result, Returns s result → result = .ok { views := [view "a", view "b"] } := by
  intro view work
  have hsucceeds : work.Succeeds := ⟨rfl, fun i _ => ⟨_, rfl⟩⟩
  let merged : Aggregator := { next := 2, schema := { views := [view "a", view "b"] } }
  let s : State :=
    { sender := .joined, workers := [.joined, .joined], aggregator := merged, expected := some 2 }
  have hover : s.Over := ⟨rfl, by simp [s], rfl⟩
  have hsteps : ReflTransGen (Step work) (init 2) s :=
    .head (.send 0 rfl (by decide) (by decide)) <|
    .head (.send 1 rfl (by decide) (by decide)) <|
    .head (.finish rfl) <|
    .head (.take [] [.idle] 0 [1] rfl rfl) <|
    .head (.take [.parsing 0] [] 1 [] rfl rfl) <|
    .head (.parse [.parsing 0] [] 1 rfl) <|
    .head (.report [.parsing 0] [] ⟨1, work.outcome 1⟩ rfl (by decide)) <|
    .head (.receive [] [] _ { pending := [(1, { views := [view "b"] })] } rfl (by cbv)) <|
    .head (.parse [] [.idle] 0 rfl) <|
    .head (.report [] [.idle] ⟨0, work.outcome 0⟩ rfl (by decide)) <|
    .head (.receive [] [] _ merged rfl (by cbv)) <|
    .head (.retire [] [.idle] rfl (by simp [Work.ending, work]) rfl) <|
    .head (.retire [.exited] [] rfl (by simp [Work.ending, work]) rfl) <|
    .head (.joinBatcher 2 rfl) <|
    .head (.joinWorker [] [.exited] rfl) <|
    .head (.joinWorker [.joined] [] rfl) .refl
  refine ⟨s, hsteps, hover, fun result hreturns => ?_⟩
  exact ((returns_of_schedule work (by decide) hsteps).1 result hreturns).1 hsucceeds

end Schedule

end DdlBridge
