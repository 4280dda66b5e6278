import Mathlib.Data.Fintype.Basic
import Mathlib.Data.List.FinRange
import Cs342.Library.Bytes
import Cs342.Library.System
import Cs342.Scheduler.ReadyQueue

/-!
# The producer and the CPUs (sched.c)

One step is one critical section, with the code of the same thread up to the next one.
The main thread produces the bursts of a workload and then one marker per queue;
each CPU tests for the marker without the lock, polls until its queue is not empty,
takes a burst under the lock, runs it, and puts it into `finishedQueue` or back into
its queue. The unlocked test is one step here; in the source it reads the head twice
and then the node, which with a single queue another CPU may free in between. What the
clock shows, and what the unlocked scan for the least loaded queue sees, is part of the
action. Printing is left out, and so is sleeping: a sleep may last arbitrarily long.
-/

namespace Cs342.Scheduler

open Library

inductive SchedulingAlgorithm where
  | fcfs | sjf | rr
  deriving DecidableEq, Repr

inductive SchedulingApproach where
  | multi | single
  deriving DecidableEq, Repr

inductive QueueSelection where
  | na | rm | lm
  deriving DecidableEq, Repr

inductive ScheduleSource where
  | file | random
  deriving DecidableEq, Repr

structure SchedProps where
  N : ℕ
  Q : ℤ
  sap : SchedulingApproach
  qs : QueueSelection
  alg : SchedulingAlgorithm
  source : ScheduleSource

/-- What stays the same of a burst while it is handed around. -/
structure Job where
  pid : ℤ
  burstLength : ℤ
  deriving DecidableEq, Repr

def BurstItem.job (b : BurstItem) : Job := ⟨b.pid, b.burstLength⟩

/-- The dummy item at the end of every queue. -/
def endMarker : BurstItem := ⟨-1, 0, 0, 0, 0, 0, 0⟩

/-! ## Choosing a queue -/

/-- What the scan for the least loaded queue reads, without a lock and so at any time: the
load of queue 0 at the start, and for each queue what is compared and what is kept. -/
structure Seen (n : ℕ) where
  first : ℤ
  compared : Fin n → ℤ
  kept : Fin n → ℤ

namespace SchedProps

def queuesSize (p : SchedProps) : ℕ :=
  match p.sap with
  | .single => 1
  | .multi => p.N

theorem queuesSize_pos (p : SchedProps) (h : 0 < p.N) : 0 < p.queuesSize := by
  unfold queuesSize; split <;> omega

/-- The queue of a CPU. -/
def queue (p : SchedProps) (cpuIdx : Fin p.N) : Fin p.queuesSize :=
  ⟨match p.sap with
    | .single => 0
    | .multi => cpuIdx, by unfold queuesSize; split <;> omega⟩

/-- The scan of `QS_LM`. `parse_and_enqueue` begins it at queue 0 and `sched_random` at queue
1; the first compares `queueLoad`, the second `size`. -/
def leastLoaded (p : SchedProps) (zero : Fin p.queuesSize) (seen : Seen p.queuesSize) :
    Fin p.queuesSize :=
  let scanned := match p.source with
    | .file => List.finRange p.queuesSize
    | .random => (List.finRange p.queuesSize).drop 1
  (scanned.foldl (fun (best : Fin p.queuesSize × ℤ) i =>
    if seen.compared i < best.2 then (i, toInt (seen.kept i)) else best)
    (zero, toInt seen.first)).1

/-- The queue the next burst is put into; `rr` is the round-robin index. -/
def select (p : SchedProps) (zero rr : Fin p.queuesSize) (seen : Seen p.queuesSize) :
    Fin p.queuesSize :=
  match p.qs with
  | .rm => rr
  | .lm => p.leastLoaded zero seen
  | .na => zero

/-- `(rr + 1) % queuesSize` after a round-robin choice. -/
def nextIdx (p : SchedProps) (rr : Fin p.queuesSize) : Fin p.queuesSize :=
  match p.qs with
  | .rm => ⟨(rr + 1) % p.queuesSize, Nat.mod_lt _ rr.pos⟩
  | _ => rr

/-- The burst the producer allocates; `sched_random` leaves the processor unset under `QS_NA`,
so there it is whatever `malloc` returned. -/
def mkBurst (p : SchedProps) (j : Job) (arrivalTime : ℤ) (queueIdx : Fin p.queuesSize)
    (unset : ℤ) : BurstItem where
  pid := j.pid
  burstLength := j.burstLength
  arrivalTime := arrivalTime
  remainingTime := j.burstLength
  finishTime := -1
  turnaroundTime := -1
  processorId :=
    match p.qs, p.source with
    | .na, .random => unset
    | _, _ => (queueIdx : ℕ)

@[simp] theorem mkBurst_job (p : SchedProps) (j : Job) (a : ℤ) (i : Fin p.queuesSize) (u : ℤ) :
    (p.mkBurst j a i u).job = j := rfl

end SchedProps

/-! ## Taking a burst out of a queue -/

namespace Queue

/-- `queue->head && queue->head->data->pid == -1`. -/
def atMarker (queue : Queue) : Option Bool :=
  match queue.head with
  | none => some false
  | some head => (queue.cells head).map fun c => decide (c.data.pid = -1)

/-- The scan of `ALG_SJF`, from `cur` on; see `scanPid` for the number of rounds. -/
def scanShortest (queue : Queue) : ℕ → Option ℕ → ℕ → Option ℕ
  | _, none, shortest => some shortest
  | 0, some _, _ => none
  | n + 1, some cur, shortest =>
    match queue.cells cur, queue.cells shortest with
    | some c, some s =>
      queue.scanShortest n c.next
        (if c.data.pid ≠ -1 ∧ c.data.remainingTime < s.data.remainingTime then cur else shortest)
    | _, _ => none

/-- What a CPU takes under the lock; a null burst is used at once, so it is a failure. -/
def pick (queue : Queue) (alg : SchedulingAlgorithm) : Option (BurstItem × Queue) := do
  let (burst, queue) ← match alg with
    | .fcfs | .rr => queue.dequeue
    | .sjf => do
      let head ← queue.head
      let shortest ← queue.scanShortest queue.brk (some head) head
      let c ← queue.cells shortest
      queue.dequeueAt c.data.pid
  let burst ← burst
  some (burst, queue)

/-- What `schedule` frees of a ready queue in the end: the burst at its head and the node. -/
def freeHead (queue : Queue) : Option (BurstItem × Heap BurstItem) := do
  let head ← queue.head
  let c ← queue.cells head
  some (c.data, queue.cells.free head)

/-- The burst the scan of `ALG_SJF` ends with. -/
def shortestOf (shortest : BurstItem) : List BurstItem → BurstItem
  | [] => shortest
  | c :: l =>
    shortestOf (if c.pid ≠ -1 ∧ c.remainingTime < shortest.remainingTime then c else shortest) l

variable {q : Queue} {q0 : ℤ} {b : BurstItem} {bursts : List BurstItem} {marker : Option BurstItem}

theorem shortestOf_mem (s : BurstItem) (l : List BurstItem) :
    shortestOf s l = s ∨ shortestOf s l ∈ l ∧ (shortestOf s l).pid ≠ -1 := by
  induction l generalizing s with
  | nil => exact .inl rfl
  | cons c l ih =>
    rw [shortestOf]
    split_ifs with h
    · rcases ih c with he | ⟨hm, hp⟩
      · exact .inr (by simp [he, h.1])
      · exact .inr ⟨List.mem_cons_of_mem _ hm, hp⟩
    · rcases ih s with he | ⟨hm, hp⟩
      · exact .inl he
      · exact .inr ⟨List.mem_cons_of_mem _ hm, hp⟩

theorem scanShortest_of_chain {p : Option ℕ} {ns : List (ℕ × BurstItem)}
    (hc : Chain q.cells p ns none) {n : ℕ} (hn : ns.length ≤ n) {a : ℕ} {s : Cell BurstItem}
    (ha : q.cells a = some s) :
    ∃ a' s', q.scanShortest n (firstAddr none ns) a = some a' ∧ q.cells a' = some s' ∧
      s'.data = shortestOf s.data (values ns) := by
  induction ns generalizing n p a s with
  | nil => exact ⟨a, s, by cases n <;> rfl, ha, rfl⟩
  | cons c ns ih =>
    cases n with
    | zero => simp at hn
    | succ n =>
      have hn' : ns.length ≤ n := by simpa using hn
      by_cases h : c.2.pid ≠ -1 ∧ c.2.remainingTime < s.data.remainingTime
      · simpa [scanShortest, hc.1, ha, shortestOf, h] using ih hc.2 hn' hc.1
      · simpa [scanShortest, hc.1, ha, shortestOf, h] using ih hc.2 hn' ha

theorem Holds.size_eq (h : q.Holds q0 bursts marker) :
    q.size = bursts.length + marker.toList.length := by
  obtain ⟨ns, hr, hv⟩ := h.repr
  have hlen := congrArg List.length hv
  simp only [List.length_map, List.length_append] at hlen
  rw [hr.size, hlen, Nat.cast_add]

/-- The marker is at the head when it is alone. -/
theorem Holds.atMarker_eq (h : q.Holds q0 bursts marker) :
    q.atMarker = some (decide (bursts = [] ∧ marker ≠ none)) := by
  obtain ⟨ns, hr, hv⟩ := h.repr
  cases ns with
  | nil =>
    have hhd : q.head = none := hr.head
    simp at hv
    simp [atMarker, hhd, hv]
  | cons c ns =>
    have hhd : q.head = some c.1 := hr.head
    have hcell := hr.chain.1
    cases bursts with
    | nil =>
      cases marker with
      | none => simp at hv
      | some m =>
        have hc : c.2 = m := by simp at hv; exact hv.1
        simp [atMarker, hhd, hcell, hc, h.marker_pid m rfl]
    | cons b bursts =>
      have hc : c.2 = b := by simp at hv; exact hv.1
      simp [atMarker, hhd, hcell, hc, h.bursts_pid b (by simp)]

theorem Holds.freeHead {m : BurstItem} (h : q.Holds q0 [] (some m)) :
    ∃ cells, q.freeHead = some (m, cells) := by
  obtain ⟨ns, hr, hv⟩ := h.repr
  obtain ⟨⟨a, x⟩, rfl, hx⟩ := List.map_eq_singleton_iff.mp hv
  have hhd : q.head = some a := hr.head
  exact ⟨q.cells.free a, by simp [Queue.freeHead, hhd, hr.chain.1, ← hx]⟩

/-- Of a queue with bursts a CPU takes one of them. -/
theorem Holds.pick (h : q.Holds q0 (b :: bursts) marker) (alg : SchedulingAlgorithm) :
    ∃ pre x post q', b :: bursts = pre ++ x :: post ∧ q.pick alg = some (x, q') ∧
      q'.Holds q0 (pre ++ post) marker := by
  have hdeq (halg : alg ≠ .sjf) : ∃ pre x post q', b :: bursts = pre ++ x :: post ∧
      q.pick alg = some (x, q') ∧ q'.Holds q0 (pre ++ post) marker := by
    obtain ⟨q', hq, hh⟩ := h.dequeue
    refine ⟨[], b, bursts, q', rfl, ?_, hh⟩
    cases alg <;> simp_all [Queue.pick]
  cases alg with
  | fcfs => exact hdeq (by simp)
  | rr => exact hdeq (by simp)
  | sjf =>
    obtain ⟨ns, hr, hv⟩ := h.repr
    obtain ⟨⟨a, x⟩, ns, rfl, hx, hns⟩ := List.map_eq_cons_iff.mp hv
    obtain rfl : x = b := hx
    have hhd : q.head = some a := hr.head
    obtain ⟨a', s', hscan, hcell, hs'⟩ := scanShortest_of_chain hr.chain hr.length_le hr.chain.1
    rw [firstAddr_cons] at hscan
    -- the scan ends with a burst of the queue; the first one with its pid is taken
    have hmem : s'.data ∈ x :: bursts := by
      have hpid : s'.data.pid ≠ -1 ∧ s'.data ∈ (x :: bursts) ++ marker.toList := by
        rcases shortestOf_mem x (values ((a, x) :: ns)) with he | ⟨hm, hp⟩
        · rw [hs', he]
          exact ⟨h.bursts_pid x (by simp), by simp⟩
        · exact ⟨hs' ▸ hp, hs' ▸ hv ▸ hm⟩
      refine (List.mem_append.mp hpid.2).resolve_right fun hm => hpid.1 ?_
      exact h.marker_pid _ (by simpa using hm)
    obtain ⟨y, hy⟩ : ∃ y, (x :: bursts).find? (fun c => c.pid = s'.data.pid) = some y :=
      Option.isSome_iff_exists.mp (List.find?_isSome.mpr ⟨_, hmem, by simp⟩)
    obtain ⟨hypid, pre, post, hsplit, hpre⟩ := List.find?_eq_some_iff_append.mp hy
    have hpid : s'.data.pid = y.pid := by simpa using (of_decide_eq_true hypid).symm
    rw [hsplit] at h
    obtain ⟨q', hq, hh⟩ := h.dequeueAt (by simpa [hpid] using hpre)
    exact ⟨pre, y, post, q', hsplit, by simp [Queue.pick, hhd, hscan, hcell, hpid, hq], hh⟩

end Queue

/-! ## States and steps -/

/-- Where a CPU is: at the top of its loop, polling, running a burst, or out of the loop. -/
inductive CpuState where
  | top
  | polling
  | running (burst : BurstItem)
  | exited
  deriving DecidableEq, Repr

structure State (p : SchedProps) where
  queues : Fin p.queuesSize → Queue
  finishedQueue : Queue
  todo : List Job
  rrQueueIdx : Fin p.queuesSize
  marked : ℕ
  cpus : Fin p.N → CpuState

inductive Action (p : SchedProps) where
  | produce (arrivalTime : ℤ) (seen : Seen p.queuesSize) (unset : ℤ)
  | mark
  | cpu (cpuIdx : Fin p.N) (now : ℤ)

namespace State

variable {p : SchedProps}

def setQueue (s : State p) (i : Fin p.queuesSize) (q : Queue) : State p :=
  { s with queues := Function.update s.queues i q }

def setFinished (s : State p) (q : Queue) : State p := { s with finishedQueue := q }

def setCpu (s : State p) (c : Fin p.N) (l : CpuState) : State p :=
  { s with cpus := Function.update s.cpus c l }

/-- The last part of a CPU's round: the burst is finished, or what is left of it goes back. -/
def complete (s : State p) (c : Fin p.N) (now : ℤ) (burst : BurstItem) : Option (State p) :=
  let finished := { burst with
    remainingTime := 0, processorId := (c : ℕ), finishTime := now
    turnaroundTime := now - burst.arrivalTime }
  let requeue := { burst with remainingTime := burst.remainingTime - p.Q }
  if p.alg = .rr ∧ burst.remainingTime > p.Q then
    ((s.queues (p.queue c)).enqueue requeue).map fun q => (s.setQueue (p.queue c) q).setCpu c .top
  else
    (s.finishedQueue.enqueue finished).map fun q => (s.setFinished q).setCpu c .top

/-- One step of a CPU. -/
def cpu (s : State p) (c : Fin p.N) (now : ℤ) : Option (State p) :=
  let queue := s.queues (p.queue c)
  match s.cpus c with
  | .top => queue.atMarker.map fun stop => s.setCpu c (if stop then .exited else .polling)
  | .polling =>
    if queue.size > 0 then do
      if ← queue.atMarker then some (s.setCpu c .exited)
      else
        let (burst, queue) ← queue.pick p.alg
        some ((s.setQueue (p.queue c) queue).setCpu c (.running burst))
    else some s
  | .running burst => s.complete c now burst
  | .exited => none

/-- The next burst of the workload. -/
def produce (s : State p) (arrivalTime : ℤ) (seen : Seen p.queuesSize) (unset : ℤ) :
    Option (State p) :=
  match s.todo with
  | [] => none
  | j :: todo =>
    let i := p.select ⟨0, s.rrQueueIdx.pos⟩ s.rrQueueIdx seen
    ((s.queues i).enqueue (p.mkBurst j arrivalTime i unset)).map fun q =>
      { s.setQueue i q with todo := todo, rrQueueIdx := p.nextIdx s.rrQueueIdx }

/-- The queue the selection falls back to. -/
def queueZero (s : State p) : Fin p.queuesSize := ⟨0, s.rrQueueIdx.pos⟩

/-- The next marker, when all bursts are enqueued. -/
def mark (s : State p) : Option (State p) :=
  if h : s.todo = [] ∧ s.marked < p.queuesSize then
    ((s.queues ⟨s.marked, h.2⟩).enqueue endMarker).map fun q =>
      { s.setQueue ⟨s.marked, h.2⟩ q with marked := s.marked + 1 }
  else none

def act (s : State p) : Action p → Option (State p)
  | .produce arrivalTime seen unset => s.produce arrivalTime seen unset
  | .mark => s.mark
  | .cpu c now => s.cpu c now

end State

/-- A configuration and the bursts it is to run. -/
structure Workload extends SchedProps where
  jobs : List Job
  N_pos : 0 < N
  Q_pos : alg = .rr → 1 ≤ Q
  pid_pos : ∀ j ∈ jobs, 1 ≤ j.pid
  pid_nodup : (jobs.map Job.pid).Nodup

/-- An empty queue; `malloc` leaves its load unset. -/
def Queue.empty (queueLoad : ℤ) : Queue := ⟨fun _ => none, 0, none, none, 0, queueLoad⟩

namespace Workload

def init (w : Workload) (s : State w.toSchedProps) : Prop :=
  (∀ i, ∃ load, s.queues i = Queue.empty load) ∧ (∃ load, s.finishedQueue = Queue.empty load) ∧
    s.todo = w.jobs ∧ s.rrQueueIdx.val = 0 ∧ s.marked = 0 ∧ ∀ c, s.cpus c = .top

def system (w : Workload) : System (State w.toSchedProps) := System.ofAct w.init State.act

end Workload

end Cs342.Scheduler
