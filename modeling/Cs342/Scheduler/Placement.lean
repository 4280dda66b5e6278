import Cs342.Scheduler.Table
import Cs342.Scheduler.Waiting

/-!
# Where a burst is run

With the queue that the producer chooses for a burst it is settled who may run it. Only the CPUs
of a queue take bursts out of it, and what is left of a burst goes back to the queue that it has
come from. So with a queue for each CPU the table shows what the producer has chosen. If it takes
the queues in turn, then the CPUs get the bursts in turn, however long these are; without a
selection one CPU runs them all.
-/

namespace Cs342.Scheduler

open Library

/-- The queue that the burst at this position is put into, if the loads do not decide on it. -/
def SchedProps.turn (p : SchedProps) (k : ℕ) : ℕ :=
  match p.qs with
  | .rm => k % p.queuesSize
  | _ => 0

/-- What a step of the producer puts into which queue. -/
def State.placement {p : SchedProps} (s : State p) : Action p → List (Job × Fin p.queuesSize)
  | .produce _ seen _ =>
    s.todo.head?.toList.map fun j => (j, p.select s.queueZero s.rrQueueIdx seen)
  | _ => []

namespace Workload

variable {w : Workload} {s t s₀ : State w.toSchedProps} {a : Action w.toSchedProps}
  {as : List (Action w.toSchedProps)} {placed more : List (Job × Fin w.queuesSize)}
  {pl : Place w.toSchedProps} {b : BurstItem}

/-! ## No burst migrates -/

/-- The burst is where its queue is, or has been finished by a CPU of its queue. -/
def AtHome (placed : List (Job × Fin w.queuesSize)) (pl : Place w.toSchedProps) (b : BurstItem) :
    Prop :=
  match pl with
  | .ready i => (b.job, i) ∈ placed
  | .hands c => (b.job, w.queue c) ∈ placed
  | .finished => ∃ c : Fin w.N, b.processorId = (c : ℕ) ∧ (b.job, w.queue c) ∈ placed

theorem AtHome.append (h : AtHome placed pl b) : AtHome (placed ++ more) pl b := by
  cases pl with
  | ready | hands => exact List.mem_append_left _ h
  | finished =>
    obtain ⟨c, hc, hmem⟩ := h
    exact ⟨c, hc, List.mem_append_left _ hmem⟩

theorem atHome_step (h : w.system.Reachable s)
    (home : ∀ pl, ∀ b ∈ s.burstsAt pl, AtHome placed pl b) (hact : s.act a = some t) :
    ∀ pl, ∀ b ∈ t.burstsAt pl, AtHome (placed ++ s.placement a) pl b := by
  have hinv := w.inv h
  cases a with
  | produce arrivalTime seen unset =>
    obtain ⟨j, todo, q, htodo, hbursts, rfl⟩ := hinv.produce_bursts hact
    have hold : ∀ pl, ∀ b ∈ s.burstsAt pl,
        AtHome (placed ++ s.placement (.produce arrivalTime seen unset)) pl b :=
      fun pl b hb => (home pl b hb).append
    refine State.forall_burstsAt_setQueue (fun b hb => ?_) hold
    rcases List.mem_append.mp (hbursts ▸ hb) with hb | hb
    · exact hold (.ready _) b hb
    · rw [List.mem_singleton.mp hb]
      simp [AtHome, State.placement, htodo]
  | mark =>
    obtain ⟨i, q, hbursts, rfl⟩ := hinv.mark_bursts hact
    simp only [State.placement, List.append_nil]
    refine State.forall_burstsAt_setQueue (fun b hb => ?_) home
    exact home (.ready i) b (by rwa [State.burstsAt, ← hbursts])
  | cpu c now =>
    simp only [State.placement, List.append_nil]
    cases State.cpu_effect hact with
    | poll | exit =>
      exact State.forall_burstsAt_setCpu (by simp [CpuState.bursts]) fun pl b hb _ => home pl b hb
    | @take b q hc hsize hmark hpick =>
      obtain ⟨pre, post, hsplit, -, hbursts⟩ := (hinv.queues (w.queue c)).pick hsize hmark hpick
      have hready (y : BurstItem) (hy : y ∈ pre ++ b :: post) : (y.job, w.queue c) ∈ placed :=
        home (.ready (w.queue c)) y (by rwa [State.burstsAt, hsplit])
      refine State.forall_burstsAt_setCpu (fun y hy => ?_) fun pl y hy _ => ?_
      · exact hready y (by simp [List.mem_singleton.mp hy])
      · refine State.forall_burstsAt_setQueue (fun y hy => hready y ?_) home pl y hy
        grind
    | @requeue b q hc hslice hq =>
      have hpid : ({ b with remainingTime := b.remainingTime - w.Q } : BurstItem).pid ≠ -1 :=
        hinv.hands c b hc
      obtain ⟨-, hbursts⟩ := (hinv.queues (w.queue c)).enqueue hpid hq
      have hheld : (b.job, w.queue c) ∈ placed := home (.hands c) b (State.mem_burstsAt_hands hc)
      refine State.forall_burstsAt_setCpu (by simp [CpuState.bursts]) fun pl y hy _ => ?_
      refine State.forall_burstsAt_setQueue (fun y hy => ?_) home pl y hy
      rcases List.mem_append.mp (hbursts ▸ hy) with hy | hy
      · exact home (.ready _) y hy
      · rw [List.mem_singleton.mp hy]
        exact hheld
    | @finish b b' q hc hlast =>
      obtain ⟨q', hbursts, heq⟩ := hinv.finish_bursts hc hlast hact
      rw [heq]
      have hheld : (b.job, w.queue c) ∈ placed := home (.hands c) b (State.mem_burstsAt_hands hc)
      refine State.forall_burstsAt_setCpu (by simp [CpuState.bursts]) fun pl y hy _ => ?_
      refine State.forall_burstsAt_setFinished (fun y hy => ?_) home pl y hy
      rcases List.mem_append.mp (hbursts ▸ hy) with hy | hy
      · exact home .finished y hy
      · rw [List.mem_singleton.mp hy]
        exact ⟨c, rfl, hheld⟩

/-- Each burst is put into one queue, in the order of the workload. -/
theorem placement_todo (hact : s.act a = some t) :
    (s.placement a).map Prod.fst ++ t.todo = s.todo := by
  cases a with
  | produce arrivalTime seen unset =>
    obtain ⟨j, todo, q, htodo, -, rfl⟩ := State.produce_cases hact
    simp [State.placement, htodo]
  | mark =>
    obtain ⟨i, q, -, -, -, rfl⟩ := State.mark_cases hact
    rfl
  | cpu c now => exact (State.cpu_effect hact).frame.1

theorem atHome_run (h₀ : w.init s₀) (hrun : System.perform State.act as s₀ = some s) :
    let placed := System.collect State.act State.placement as s₀
    w.system.Reachable s ∧ placed.map Prod.fst ++ s.todo = w.jobs ∧
      ∀ pl, ∀ b ∈ s.burstsAt pl, AtHome placed pl b := by
  refine System.collect_invariant (J := fun s placed => w.system.Reachable s ∧
    placed.map Prod.fst ++ s.todo = w.jobs ∧ ∀ pl, ∀ b ∈ s.burstsAt pl, AtHome placed pl b)
    ⟨.start h₀, h₀.2.2.1, fun pl b hb => by simp [burstsAt_init h₀] at hb⟩ ?_ hrun
  rintro s a t placed ⟨hs, hjobs, home⟩ hact
  refine ⟨hs.next ⟨a, hact⟩, ?_, atHome_step hs home hact⟩
  rw [List.map_append, List.append_assoc, placement_todo hact, hjobs]

/-- A burst is run by the CPUs of the queue that the producer has put it into, and finished by
one of them. -/
theorem never_migrates (h₀ : w.init s₀) (hrun : System.perform State.act as s₀ = some s) :
    let placed := System.collect State.act State.placement as s₀
    placed.map Prod.fst ++ s.todo = w.jobs ∧
      (∀ c b, s.cpus c = .running b → (b.job, w.queue c) ∈ placed) ∧
      ∀ b ∈ s.finishedQueue.items, ∃ c : Fin w.N, b.processorId = (c : ℕ) ∧
        (b.job, w.queue c) ∈ placed := by
  intro placed
  obtain ⟨hs, hjobs, home⟩ := atHome_run h₀ hrun
  refine ⟨hjobs, fun c b hc => home (.hands c) b (State.mem_burstsAt_hands hc), fun b hb => ?_⟩
  exact home .finished b (by rwa [State.burstsAt, ← (w.inv hs).finished_items])

/-! ## The processors of the table -/

/-- Which queues have been chosen so far, and which is the next. -/
def InTurn (s : State w.toSchedProps) (placed : List (Job × Fin w.queuesSize)) : Prop :=
  (∀ k x, placed[k]? = some x → (x.2 : ℕ) = w.turn k) ∧
    (w.qs = .rm → (s.rrQueueIdx : ℕ) = placed.length % w.queuesSize)

theorem inTurn_step (hqs : w.qs ≠ .lm) (h : InTurn s placed) (hact : s.act a = some t) :
    InTurn t (placed ++ s.placement a) := by
  obtain ⟨hturn, hnext⟩ := h
  cases a with
  | produce arrivalTime seen unset =>
    obtain ⟨j, todo, q, htodo, -, rfl⟩ := State.produce_cases hact
    have hselect : (w.select s.queueZero s.rrQueueIdx seen : ℕ) = w.turn placed.length := by
      cases hw : w.qs with
      | rm => simp [SchedProps.select, SchedProps.turn, hw, hnext hw]
      | lm => exact absurd hw hqs
      | na => simp [SchedProps.select, SchedProps.turn, hw, State.queueZero]
    simp only [InTurn, State.placement, htodo, List.head?_cons, Option.toList_some, List.map_cons,
      List.map_nil]
    refine ⟨fun k x hk => ?_, fun hrm => ?_⟩
    · rcases lt_trichotomy k placed.length with hlt | rfl | hgt
      · rw [List.getElem?_append_left hlt] at hk
        exact hturn k x hk
      · rw [List.getElem?_concat_length] at hk
        rw [← Option.some.inj hk]
        exact hselect
      · rw [List.getElem?_eq_none (by simpa using Nat.succ_le_of_lt hgt)] at hk
        cases hk
    · simp [SchedProps.nextIdx, hrm, hnext hrm]
  | mark =>
    obtain ⟨i, q, -, -, -, rfl⟩ := State.mark_cases hact
    simp only [State.placement, List.append_nil]
    exact ⟨hturn, hnext⟩
  | cpu c now =>
    simp only [State.placement, List.append_nil]
    exact ⟨hturn, by rwa [(State.cpu_effect hact).frame.2.2.1]⟩

theorem inTurn_run (hqs : w.qs ≠ .lm) (h₀ : w.init s₀)
    (hrun : System.perform State.act as s₀ = some s) :
    InTurn s (System.collect State.act State.placement as s₀) := by
  refine System.collect_invariant ⟨by simp, fun _ => ?_⟩
    (fun s a t placed h hact => inTurn_step hqs h hact) hrun
  simpa using h₀.2.2.2.1

/-- With a queue for each CPU the processor of a burst tells its place in the workload. -/
theorem processorId_eq (hsap : w.sap = .multi) (hqs : w.qs ≠ .lm) (h : w.system.Reachable s)
    (hb : b ∈ s.finishedQueue.bursts) :
    ∃ k, w.jobs[k]? = some b.job ∧ b.processorId = w.turn k := by
  obtain ⟨s₀, h₀, hsteps⟩ := h
  obtain ⟨as, hrun⟩ := System.exists_perform_of_steps hsteps
  obtain ⟨-, hjobs, home⟩ := atHome_run h₀ hrun
  obtain ⟨c, hc, hmem⟩ := home .finished b hb
  obtain ⟨k, hk⟩ := List.mem_iff_getElem?.mp hmem
  have hqueue : (w.queue c : ℕ) = c := by simp [SchedProps.queue, hsap]
  refine ⟨k, ?_, ?_⟩
  · have hfst := congrArg (Option.map Prod.fst) hk
    rw [← List.getElem?_map] at hfst
    have hlt := (List.getElem?_eq_some_iff.mp hfst).1
    rw [← hjobs, List.getElem?_append_left hlt]
    exact hfst
  · rw [hc, ← hqueue, ← (inTurn_run hqs h₀ hrun).1 k _ hk]

variable {p : SchedProps} {hN : 0 < p.N} {hQ : p.alg = .rr → 1 ≤ p.Q} {events : List Event}
  {r : ℕ → State p}

/-- What the table says of a job. -/
def row (p : SchedProps) (j : Job) : ℤ × ℤ × ℤ :=
  (j.pid, p.turn (j.pid - 1).toNat, j.burstLength)

theorem map_row_numbered (p : SchedProps) (ls : List ℤ) :
    (numbered 1 ls).map (row p) =
      ls.mapIdx fun k length => ((k : ℤ) + 1, (p.turn k : ℤ), length) := by
  rw [numbered, List.zipIdx_eq_map_add, List.map_map, List.map_map, List.mapIdx_eq_zipIdx_map]
  refine List.map_congr_left fun x _ => ?_
  simp [row, add_comm]

theorem row_of_mem_bursts (hsap : p.sap = .multi) (hqs : p.qs ≠ .lm) {s : State p}
    (h : (ofEvents p hN hQ events).system.Reachable s) (hb : b ∈ s.finishedQueue.bursts) :
    (b.pid, b.processorId, b.burstLength) = row p b.job := by
  obtain ⟨k, hk, hprocessor⟩ := processorId_eq hsap hqs h hb
  have hjob : (numbered 1 (lengths events))[k]? = some b.job := hk
  have hpid : b.pid = (k : ℤ) + 1 := by
    rw [numbered, List.getElem?_map, List.getElem?_zipIdx] at hjob
    obtain ⟨x, hx, hb⟩ := Option.map_eq_some_iff.mp hjob
    obtain ⟨l, -, rfl⟩ := Option.map_eq_some_iff.mp hx
    have hpid := congrArg Job.pid hb
    simpa [BurstItem.job, add_comm] using hpid.symm
  rw [row, BurstItem.job, hpid, hprocessor]
  simp [ofEvents]

theorem row_of_mem_lines (hsap : p.sap = .multi) (hqs : p.qs ≠ .lm) {s : State p}
    (h : (ofEvents p hN hQ events).system.Reachable s) {t : Report}
    (ht : s.finishedQueue.report = some t) {l : ReportLine} (hl : l ∈ t.lines) :
    (l.pid, l.cpu, l.burstlen) = row p l.job := by
  obtain ⟨⟨q0, hholds⟩, -, -⟩ := holds_finishedQueue h
  rw [hholds.report, Option.ite_none_left_eq_some, Option.some.injEq] at ht
  obtain ⟨-, rfl⟩ := ht
  obtain ⟨b, hb, rfl⟩ := List.mem_map.mp hl
  rw [Queue.byPid_perm.mem_iff, (inv _ h).finished_items] at hb
  exact row_of_mem_bursts hsap hqs h hb

/-- With a queue for each CPU, and unless the loads decide, the table has the bursts of the input
on the processors in turn. -/
theorem table_processors (hsap : p.sap = .multi) (hqs : p.qs ≠ .lm)
    (hrun : (ofEvents p hN hQ events).system.Run r)
    (fair : (ofEvents p hN hQ events).system.Fair r) :
    ∃ n, ∀ m, n ≤ m → ∀ t, (r m).finishedQueue.report = some t →
      t.lines.map (fun l => (l.pid, l.cpu, l.burstlen)) =
        (lengths events).mapIdx fun k length => ((k : ℤ) + 1, (p.turn k : ℤ), length) := by
  obtain ⟨n, hjobs⟩ := report_jobs hrun fair
  refine ⟨n, fun m hm t ht => ?_⟩
  have hrows : t.lines.map (fun l => (l.pid, l.cpu, l.burstlen)) =
      (t.lines.map ReportLine.job).map (row p) := by
    rw [List.map_map]
    exact List.map_congr_left fun l hl => row_of_mem_lines hsap hqs (hrun.reachable m) ht hl
  rw [hrows, hjobs m hm t ht, map_row_numbered]

/-! ## An instance -/

/-- Two CPUs with a queue each. -/
def twoQueues : SchedProps where
  N := 2
  Q := 0
  sap := .multi
  qs := .rm
  alg := .fcfs
  source := .file

theorem twoQueues_Q_pos : twoQueues.alg = .rr → 1 ≤ twoQueues.Q := by simp [twoQueues]

/-- Three bursts for them. -/
def dealt : Workload :=
  ofEvents twoQueues Nat.two_pos twoQueues_Q_pos [.burst 3, .burst 1, .burst 2]

/-- CPU 0 runs the first and the third burst, and CPU 1 the second. -/
def dealtActions : List (Action dealt.toSchedProps) :=
  let seen : Seen dealt.queuesSize := ⟨0, fun _ => 0, fun _ => 0⟩
  let cpu0 : Fin 2 := Fin.rev (Fin.last 1)
  let cpu1 : Fin 2 := Fin.last 1
  [.produce 0 seen 0, .produce 0 seen 0, .cpu cpu1 0, .cpu cpu0 0, .cpu cpu0 0, .produce 1 seen 0,
   .cpu cpu1 0, .cpu cpu1 1, .mark, .mark, .cpu cpu0 3, .cpu cpu0 3, .cpu cpu0 3, .cpu cpu0 5,
   .cpu cpu1 5, .cpu cpu0 5]

def dealtEnd : State dealt.toSchedProps :=
  (System.perform State.act dealtActions dealt.start).get (by decide +kernel)

theorem never_migrates_dealtEnd :
    let placed := System.collect State.act State.placement dealtActions dealt.start
    placed.map Prod.fst ++ dealtEnd.todo = dealt.jobs ∧
      (∀ c b, dealtEnd.cpus c = .running b → (b.job, dealt.queue c) ∈ placed) ∧
      ∀ b ∈ dealtEnd.finishedQueue.items, ∃ c : Fin dealt.N, b.processorId = (c : ℕ) ∧
        (b.job, dealt.queue c) ∈ placed :=
  never_migrates dealt.init_start (Option.some_get _).symm

theorem table_processors_dealt :
    ∃ n, ∀ m, n ≤ m → ∀ t,
      (System.trace State.act dealt.start dealtActions m).finishedQueue.report = some t →
        t.lines.map (fun l => (l.pid, l.cpu, l.burstlen)) =
          (lengths [.burst 3, .burst 1, .burst 2]).mapIdx fun k length =>
            ((k : ℤ) + 1, (twoQueues.turn k : ℤ), length) :=
  table_processors (p := twoQueues) rfl (by decide)
    (System.run_trace dealt.init_start dealtActions)
    (System.fair_trace (quiet_of_all_left (w := dealt) (by decide +kernel) (by decide +kernel)
      (by decide +kernel)))

end Workload

end Cs342.Scheduler
