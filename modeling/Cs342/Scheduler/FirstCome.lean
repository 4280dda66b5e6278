import Cs342.Scheduler.RoundRobin
import Cs342.Scheduler.Slices

/-!
# First come, first served

Without round robin a burst is never put back: it is run once, for its whole length, by
the CPU that takes it. Under `ALG_FCFS` the CPUs of a queue take the bursts in the order
in which the producer enqueued them.
-/

namespace Cs342.Scheduler

open Library

namespace Workload

variable {w : Workload} {s t s₀ : State w.toSchedProps} {a : Action w.toSchedProps}
  {as : List (Action w.toSchedProps)} {b : BurstItem} {j : Job} {i : Fin w.queuesSize}

/-! ## No burst is run twice -/

/-- A burst that is not finished has all of its time remaining. -/
theorem remaining_eq (halg : w.alg ≠ .rr) (h : w.system.Reachable s) :
    ∀ pl, ∀ b ∈ s.burstsAt pl, pl ≠ .finished → b.remainingTime = b.burstLength := by
  refine h.invariant (I := fun s => ∀ pl, ∀ b ∈ s.burstsAt pl, pl ≠ .finished →
    b.remainingTime = b.burstLength) (fun s h₀ pl b hb => ?_) ?_
  · simp [burstsAt_init h₀] at hb
  · rintro s t hr hs ⟨a, ha⟩
    have hinv := w.inv hr
    cases a with
    | produce arrivalTime seen unset =>
      obtain ⟨j, todo, q, -, hbursts, rfl⟩ := hinv.produce_bursts ha
      refine State.forall_burstsAt_setQueue (fun b hb _ => ?_) hs
      rcases List.mem_append.mp (hbursts ▸ hb) with hb | hb
      · exact hs (.ready _) b hb (by simp)
      · rw [List.mem_singleton.mp hb]
        rfl
    | mark =>
      obtain ⟨i, q, hbursts, rfl⟩ := hinv.mark_bursts ha
      refine State.forall_burstsAt_setQueue (fun b hb => ?_) hs
      exact hs (.ready i) b (by rwa [State.burstsAt, ← hbursts])
    | cpu c now =>
      cases State.cpu_effect ha with
      | poll | exit =>
        exact State.forall_burstsAt_setCpu (by simp [CpuState.bursts]) fun pl b hb _ => hs pl b hb
      | @take b q hc hsize hmark hpick =>
        obtain ⟨pre, post, hsplit, -, hbursts⟩ := (hinv.queues (w.queue c)).pick hsize hmark hpick
        have hready (y : BurstItem) (hy : y ∈ pre ++ b :: post) :
            y.remainingTime = y.burstLength :=
          hs (.ready (w.queue c)) y (by rwa [State.burstsAt, hsplit]) (by simp)
        refine State.forall_burstsAt_setCpu (fun y hy _ => ?_) fun pl y hy _ => ?_
        · exact hready y (by simp [List.mem_singleton.mp hy])
        · refine State.forall_burstsAt_setQueue (fun y hy _ => hready y ?_) hs pl y hy
          grind
      | requeue hc hslice => exact absurd hslice.1 halg
      | finish =>
        refine State.forall_burstsAt_setCpu (by simp [CpuState.bursts]) fun pl y hy _ => ?_
        exact State.forall_burstsAt_setFinished (fun y hy h => absurd rfl h) hs pl y hy

/-- What a CPU executes of a burst in its hands is the whole of it. -/
theorem execTime_eq (halg : w.alg ≠ .rr) (h : w.system.Reachable s) {c : Fin w.N}
    (hc : s.cpus c = .running b) : w.execTime b = b.burstLength := by
  have hremaining := remaining_eq halg h (.hands c) b (State.mem_burstsAt_hands hc) (by simp)
  cases hw : w.alg with
  | fcfs => simp [SchedProps.execTime, hw]
  | sjf => simpa [SchedProps.execTime, hw] using hremaining
  | rr => exact absurd hw halg

/-- A burst has been executed if and only if it is finished, and then in one slice. -/
def RunOnce (s : State w.toSchedProps) (slices : List (ℤ × ℤ)) : Prop :=
  ∀ j ∈ w.jobs, slicesOf j.pid slices =
    if j ∈ s.finishedQueue.jobs then [j.burstLength] else []

theorem runOnce_step (halg : w.alg ≠ .rr) (h : w.system.Reachable s) {slices : List (ℤ × ℤ)}
    (hs : RunOnce s slices) (hact : s.act a = some t) :
    RunOnce t (slices ++ s.slice a) := by
  have hinv := w.inv h
  cases a with
  | produce arrivalTime seen unset =>
    obtain ⟨j, todo, q, -, -, rfl⟩ := State.produce_cases hact
    simp only [State.slice, List.append_nil]
    exact hs
  | mark =>
    obtain ⟨i, q, -, -, -, rfl⟩ := State.mark_cases hact
    simp only [State.slice, List.append_nil]
    exact hs
  | cpu c now =>
    cases State.cpu_effect hact with
    | poll idle =>
      rw [State.slice_eq_nil (idle.imp And.left And.left), List.append_nil]
      exact hs
    | exit idle =>
      rw [State.slice_eq_nil idle, List.append_nil]
      exact hs
    | take hc =>
      simp only [State.slice, hc, List.append_nil]
      exact hs
    | requeue hc hslice => exact absurd hslice.1 halg
    | @finish b b' q hc hlast hjob hremaining hq =>
      obtain ⟨-, hbursts⟩ := hinv.finished.enqueue (hinv.pid_ne_of_running hc hjob) hq
      have hjobs : q.jobs = b.job ::ₘ s.finishedQueue.jobs := by
        rw [Queue.jobs_concat hbursts, hjob]
      simp only [State.slice, hc, execTime_eq halg h hc]
      intro j hj
      have hmem : j ∈ ((s.setFinished q).setCpu c .top).finishedQueue.jobs ↔
          j = b.job ∨ j ∈ s.finishedQueue.jobs := by
        rw [← Multiset.mem_cons, ← hjobs]
        rfl
      rcases eq_or_ne j b.job with rfl | hne
      · -- the burst was in the hands of the CPU, so it was not finished before
        have hfinished : b.job ∉ s.finishedQueue.jobs := by
          intro hin
          obtain ⟨x, hx, hxb⟩ := List.mem_map.mp hin
          exact (pid_ne h (State.mem_burstsAt_hands hc)).1 .finished x hx (by simp)
            (congrArg Job.pid hxb)
        have hnone := hs b.job hj
        rw [if_neg hfinished] at hnone
        rw [if_pos (hmem.mpr (.inl rfl))]
        have : slicesOf b.pid slices = [] := hnone
        simp [BurstItem.job, this]
      · have hpid : j.pid ≠ b.pid := fun hp =>
          hne (List.inj_on_of_nodup_map w.pid_nodup hj (job_mem h (State.mem_burstsAt_hands hc)) hp)
        rw [slicesOf_concat_of_ne hpid, hs j hj]
        simp only [hmem, hne, false_or]

/-- Without round robin every burst is run once, for its whole length, before it is finished;
until then it is not run at all. -/
theorem never_preempted (halg : w.alg ≠ .rr) (h₀ : w.init s₀)
    (hrun : System.perform State.act as s₀ = some s) :
    let slices := System.collect State.act State.slice as s₀
    (∀ b ∈ s.finishedQueue.items, slicesOf b.pid slices = [b.burstLength]) ∧
      ∀ j ∈ w.jobs, j ∉ s.finishedQueue.jobs → slicesOf j.pid slices = [] := by
  intro slices
  have hinvariant : w.system.Reachable s ∧ RunOnce s slices := by
    refine System.collect_invariant (J := fun s slices => w.system.Reachable s ∧ RunOnce s slices)
      ⟨.start h₀, fun j hj => ?_⟩ ?_ hrun
    · have hnone := burstsAt_init h₀ .finished
      simp only [State.burstsAt] at hnone
      simp [Queue.jobs, hnone]
    · rintro s a t shown ⟨hs, honce⟩ hact
      exact ⟨hs.next ⟨a, hact⟩, runOnce_step halg hs honce hact⟩
  obtain ⟨hs, honce⟩ := hinvariant
  refine ⟨fun b hb => ?_, fun j hj hnot => by rw [honce j hj, if_neg hnot]⟩
  have hb : b ∈ s.burstsAt .finished := by rwa [State.burstsAt, ← (w.inv hs).finished_items]
  have hin : b.job ∈ s.finishedQueue.jobs := State.mem_jobsAt hb
  have hslices := honce b.job (job_mem hs hb)
  rwa [if_pos hin] at hslices

/-! ## The order of arrival -/

/-- What one step puts into queue `i` is taken off the bursts still to be produced. -/
theorem added_todo (halg : w.alg ≠ .rr) (hact : s.act a = some t) (i : Fin w.queuesSize) :
    let todo := (State.ofQueue i (s.added a)).map BurstItem.job ++ t.todo
    todo.Sublist s.todo ∧ (w.sap = .single → todo = s.todo) := by
  intro todo
  cases a with
  | produce arrivalTime seen unset =>
    obtain ⟨j, rest, q, htodo, -, rfl⟩ := State.produce_cases hact
    simp only [todo, State.added, htodo]
    set k := w.select s.queueZero s.rrQueueIdx seen
    rcases eq_or_ne k i with hk | hk
    · rw [hk, State.ofQueue_self]
      exact ⟨.refl _, fun _ => rfl⟩
    · rw [State.ofQueue_of_ne hk]
      refine ⟨List.sublist_cons_self j rest, fun hsap => absurd (Fin.ext ?_) hk⟩
      have hk := k.isLt
      have hi := i.isLt
      simp only [SchedProps.queuesSize, hsap] at hk hi
      omega
  | mark =>
    obtain ⟨k, q, -, -, -, rfl⟩ := State.mark_cases hact
    exact ⟨.refl _, fun _ => rfl⟩
  | cpu c now =>
    have hnone : s.added (.cpu c now) = none := by
      simp only [State.added]
      split
      · rw [if_neg fun hslice => halg hslice.1]
      · rfl
    simp only [todo, hnone, (State.cpu_effect hact).frame.1]
    exact ⟨.refl _, fun _ => rfl⟩

/-- What a queue is given over a run is a part of the workload, in its order; a single queue is
given all that is produced. -/
theorem added_sublist (halg : w.alg ≠ .rr) (h₀ : w.init s₀)
    (hrun : System.perform State.act as s₀ = some s) (i : Fin w.queuesSize) :
    let given := (System.collect State.act (fun s a => State.ofQueue i (s.added a)) as s₀).map
      BurstItem.job ++ s.todo
    given.Sublist w.jobs ∧ (w.sap = .single → given = w.jobs) := by
  refine System.collect_invariant (J := fun s shown =>
    (shown.map BurstItem.job ++ s.todo).Sublist w.jobs ∧
      (w.sap = .single → shown.map BurstItem.job ++ s.todo = w.jobs)) ?_ ?_ hrun
  · simp [h₀.2.2.1]
  · rintro s a t shown ⟨hsub, heq⟩ hact
    obtain ⟨hstep, hsingle⟩ := added_todo halg hact i
    rw [List.map_append, List.append_assoc]
    exact ⟨(hstep.append_left _).trans hsub, fun hsap => by rw [hsingle hsap, heq hsap]⟩

/-- Under `ALG_FCFS` the bursts taken out of a queue, then those in it, then those still to be
produced, are in the order of the workload; with a single queue they are the workload. -/
theorem first_come_first_served (halg : w.alg = .fcfs) (h₀ : w.init s₀)
    (hrun : System.perform State.act as s₀ = some s) (i : Fin w.queuesSize) :
    let taken := System.collect State.act (fun s a => State.ofQueue i (s.taken a)) as s₀
    let line := (taken ++ (s.queues i).bursts).map BurstItem.job ++ s.todo
    line.Sublist w.jobs ∧ (w.sap = .single → line = w.jobs) := by
  intro taken line
  have hlaw : taken ++ (s.queues i).bursts =
      System.collect State.act (fun s a => State.ofQueue i (s.added a)) as s₀ := by
    have hempty : (s₀.queues i).bursts = [] := burstsAt_init h₀ (.ready i)
    have hlane := collect_taken (by simp [halg]) (.start h₀) hrun i
    rwa [hempty, List.nil_append] at hlane
  simp only [line, hlaw]
  exact added_sublist (by simp [halg]) h₀ hrun i

/-! ## An instance -/

/-- Two CPUs that share a queue of three bursts. -/
def trio : Workload where
  N := 2
  Q := 0
  sap := .single
  qs := .na
  alg := .fcfs
  source := .file
  jobs := [⟨1, 5⟩, ⟨2, 3⟩, ⟨3, 4⟩]
  N_pos := Nat.two_pos
  Q_pos := by simp
  pid_pos := by decide
  pid_nodup := by decide

/-- CPU 1 takes the second burst and finishes it first, and then takes the third. -/
def trioActions : List (Action trio.toSchedProps) :=
  let seen : Seen trio.queuesSize := ⟨0, fun _ => 0, fun _ => 0⟩
  let cpu0 : Fin 2 := Fin.rev (Fin.last 1)
  let cpu1 : Fin 2 := Fin.last 1
  [.produce 0 seen 0, .cpu cpu0 0, .cpu cpu0 0, .produce 1 seen 0, .produce 1 seen 0,
   .cpu cpu1 1, .cpu cpu1 1, .cpu cpu1 4, .cpu cpu1 4, .cpu cpu1 4]

def trioEnd : State trio.toSchedProps :=
  (System.perform State.act trioActions trio.start).get (by decide +kernel)

theorem never_preempted_trioEnd :
    let slices := System.collect State.act State.slice trioActions trio.start
    (∀ b ∈ trioEnd.finishedQueue.items, slicesOf b.pid slices = [b.burstLength]) ∧
      ∀ j ∈ trio.jobs, j ∉ trioEnd.finishedQueue.jobs → slicesOf j.pid slices = [] :=
  never_preempted (by decide) trio.init_start (Option.some_get _).symm

theorem first_come_first_served_trioEnd :
    let i : Fin trio.queuesSize := trio.queue (Fin.last 1)
    let taken := System.collect State.act (fun s a => State.ofQueue i (s.taken a)) trioActions
      trio.start
    let line := (taken ++ (trioEnd.queues i).bursts).map BurstItem.job ++ trioEnd.todo
    line.Sublist trio.jobs ∧ (trio.sap = .single → line = trio.jobs) :=
  first_come_first_served rfl trio.init_start (Option.some_get _).symm _

end Workload

end Cs342.Scheduler
