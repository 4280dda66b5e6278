import Cs342.Scheduler.LeastLoad
import Cs342.Scheduler.Report

/-!
# Setting up the queues (mps.c, sched.c)

`malloc` returns memory that may hold anything. `schedule` sets all of a ready queue but its
load, and of `finishedQueue` nothing is ever set. So the counters are exact at the start
if and only if that memory is zero. They stay exact then, since what the load exceeds
the lengths of the bursts by is the same after every step.

A pointer that was never set points to no node, so it cannot be followed.
-/

namespace Cs342.Scheduler

open Library

/-- What is found in the memory of a new queue. -/
structure Garbage where
  head : Option ℕ
  tail : Option ℕ
  size : ℤ
  queueLoad : ℤ

structure Malloc (p : SchedProps) where
  queues : Fin p.queuesSize → Garbage
  finishedQueue : Garbage

namespace Queue

def malloc (g : Garbage) : Queue := ⟨fun _ => none, 0, g.head, g.tail, g.size, g.queueLoad⟩

/-- What `schedule` sets of a ready queue. -/
def setUp (g : Garbage) : Queue := { malloc g with size := 0, head := none, tail := none }

/-- The counters are those of the nodes that are found behind `head`. -/
def Exact (q : Queue) : Prop :=
  ∃ nodes, q.cells.follow Cell.next q.brk q.head = some nodes ∧ q.size = nodes.length ∧
    q.queueLoad = (nodes.map BurstItem.burstLength).sum ∧
    (nodes = [] → q.head = none ∧ q.tail = none)

theorem exact_setUp_iff {g : Garbage} : (setUp g).Exact ↔ g.queueLoad = 0 := by
  simp [Exact, setUp, malloc, Heap.follow]

theorem exact_malloc_iff {g : Garbage} : (malloc g).Exact ↔ g = ⟨none, none, 0, 0⟩ := by
  obtain ⟨head, tail, size, queueLoad⟩ := g
  cases head with
  | none =>
    simp only [Exact, malloc, Heap.follow, Garbage.mk.injEq]
    grind
  | some a => simp [Exact, malloc, Heap.follow]

/-! ## What the load exceeds the lengths by -/

/-- The load of the queue without its bursts. -/
def base (q : Queue) : ℤ := q.queueLoad - (q.items.map BurstItem.burstLength).sum

variable {q q' : Queue} {q0 : ℤ} {bursts : List BurstItem} {b : BurstItem}
  {marker : Option BurstItem}

theorem Holds.base_eq (h : q.Holds q0 bursts marker) : q.base = q0 := by
  obtain ⟨ns, hr, hv⟩ := h.repr
  rw [base, h.items_eq, ← hv, hr.load, add_sub_cancel_right]

theorem Holds.exact (h : q.Holds 0 bursts marker) : q.Exact := by
  obtain ⟨ns, hr, -⟩ := h.repr
  refine ⟨values ns, ?_, by simpa using hr.size, by simpa using hr.load, fun hnil => ?_⟩
  · rw [hr.head]
    exact hr.chain.follow_next hr.length_le
  · obtain rfl := List.map_eq_nil_iff.mp hnil
    exact ⟨hr.head, hr.tail⟩

theorem Sound.exact (h : q.Sound marker) (hbase : q.base = 0) : q.Exact := by
  obtain ⟨q0, h⟩ := h
  rw [h.base_eq] at hbase
  exact (hbase ▸ h).exact

theorem Sound.base_enqueue (h : q.Sound marker) (hb : b.pid ≠ -1) (henq : q.enqueue b = some q') :
    q'.base = q.base := by
  obtain ⟨q0, h⟩ := h
  obtain ⟨r, hr, hh⟩ := h.enqueue hb
  obtain rfl := Option.some.inj (hr.symm.trans henq)
  rw [hh.base_eq, h.base_eq]

theorem Sound.base_enqueue_marker (h : q.Sound none) (henq : q.enqueue endMarker = some q') :
    q'.base = q.base := by
  obtain ⟨q0, h⟩ := h
  obtain ⟨r, hr, hh⟩ := h.enqueue_marker (m := endMarker) rfl
  obtain rfl := Option.some.inj (hr.symm.trans henq)
  rw [hh.base_eq, h.base_eq]

theorem Sound.base_pick (h : q.Sound marker) {alg : SchedulingAlgorithm} (hsize : 0 < q.size)
    (hmark : q.atMarker = some false) (hpick : q.pick alg = some (b, q')) : q'.base = q.base := by
  obtain ⟨pre, post, hsplit, -, -⟩ := h.pick hsize hmark hpick
  obtain ⟨q0, h⟩ := h
  obtain ⟨c, l, hcons⟩ : ∃ c l, q.bursts = c :: l := by
    rw [hsplit]
    cases pre <;> simp
  rw [hcons] at h
  obtain ⟨_, x, _, r, -, hr, hh⟩ := h.pick alg
  obtain ⟨rfl, rfl⟩ : x = b ∧ r = q' := by simpa using hr.symm.trans hpick
  rw [hh.base_eq, h.base_eq]

theorem Sound.base_sort (h : q.Sound none) (hsort : q.sort = some q') :
    q'.Sound none ∧ q'.base = q.base := by
  obtain ⟨q0, h⟩ := h
  obtain ⟨r, hr, hh⟩ := h.sort
  obtain rfl := Option.some.inj (hr.symm.trans hsort)
  exact ⟨hh.sound.1, by rw [hh.base_eq, h.base_eq]⟩

end Queue

/-! ## Steps and runs -/

namespace State

variable {p : SchedProps} {s t : State p}

/-- No queue has a load but that of its bursts. -/
def Unladen (s : State p) : Prop := (∀ i, (s.queues i).base = 0) ∧ s.finishedQueue.base = 0

theorem Unladen.setQueue (h : s.Unladen) {i : Fin p.queuesSize} {q : Queue}
    (hq : q.base = (s.queues i).base) : (s.setQueue i q).Unladen := by
  refine ⟨?_, h.2⟩
  apply (Function.forall_update_iff s.queues fun _ q => q.base = 0).mpr
  exact ⟨hq.trans (h.1 i), fun k _ => h.1 k⟩

theorem Inv.unladen_step (hinv : s.Inv) (h : s.Unladen) (st : Effect s t) : t.Unladen := by
  cases st with
  | @produce j todo i rr b q htodo hjob henq =>
    exact h.setQueue ((hinv.queues i).base_enqueue (hinv.pid_ne_of_todo htodo hjob) henq)
  | @mark i q htodo hnext henq =>
    have hnone : markerAt s.marked i = none := by simp [markerAt, hnext]
    exact h.setQueue ((hnone ▸ hinv.queues i).base_enqueue_marker henq)
  | poll | exit => exact h
  | @take c b q hpolling hsize hmark hpick =>
    exact h.setQueue ((hinv.queues (p.queue c)).base_pick hsize hmark hpick)
  | @requeue c b b' q hrun hjob henq =>
    have hpid := hinv.pid_ne_of_running hrun hjob
    exact h.setQueue ((hinv.queues (p.queue c)).base_enqueue hpid henq)
  | @finish c b b' q hrun hjob hrem henq =>
    have hpid := hinv.pid_ne_of_running hrun hjob
    exact ⟨h.1, (hinv.finished.base_enqueue hpid henq).trans h.2⟩

end State

namespace Workload

variable {w : Workload} {m : Malloc w.toSchedProps} {s : State w.toSchedProps}

theorem exists_queue (w : Workload) : 0 < w.queuesSize := w.queuesSize_pos w.N_pos

/-- What `main` and `schedule` begin with. -/
def setUp (w : Workload) (m : Malloc w.toSchedProps) : State w.toSchedProps where
  queues i := Queue.setUp (m.queues i)
  finishedQueue := Queue.malloc m.finishedQueue
  todo := w.jobs
  rrQueueIdx := ⟨0, w.exists_queue⟩
  marked := 0
  cpus _ := .top

def runs (w : Workload) (m : Malloc w.toSchedProps) : System (State w.toSchedProps) :=
  System.ofAct (fun s => s = w.setUp m) State.act

/-- Every queue is exact, and `finishedQueue` still is when it has been sorted. -/
def CountersExact (s : State w.toSchedProps) : Prop :=
  (∀ i, (s.queues i).Exact) ∧ s.finishedQueue.Exact ∧
    ∀ q, s.finishedQueue.sort = some q → q.Exact

theorem init_setUp (hfinished : m.finishedQueue = ⟨none, none, 0, 0⟩) : w.init (w.setUp m) := by
  refine ⟨fun i => ⟨(m.queues i).queueLoad, rfl⟩, ⟨0, ?_⟩, rfl, rfl, rfl, fun _ => rfl⟩
  rw [setUp, hfinished]
  rfl

theorem unladen_setUp (hqueues : ∀ i, (m.queues i).queueLoad = 0)
    (hfinished : m.finishedQueue = ⟨none, none, 0, 0⟩) : (w.setUp m).Unladen := by
  refine ⟨fun i => ?_, ?_⟩
  · have hload : ((w.setUp m).queues i).queueLoad = 0 := hqueues i
    rw [Queue.base, hload]
    rfl
  · rw [setUp, hfinished]
    rfl

/-- Two CPUs with a queue each, under `QS_LM`. -/
def balancedJobs : Workload where
  toSchedProps := SchedProps.balanced 2
  jobs := [⟨1, 3⟩]
  N_pos := by decide
  Q_pos := by decide
  pid_pos := by decide
  pid_nodup := by decide

/-- The memory of the first ready queue is not zero. -/
def dirty : Malloc balancedJobs.toSchedProps where
  queues i := ⟨none, none, 0, if i.val = 0 then 7 else 0⟩
  finishedQueue := ⟨none, none, 0, 0⟩

end Workload

end Cs342.Scheduler
