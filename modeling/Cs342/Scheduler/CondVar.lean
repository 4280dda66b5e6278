import Cs342.Scheduler.Mutex

/-!
# The scheduler with condition variables (sched_cv.c)

The producer is that of `sched.c`, but signals after each burst from a file. A CPU waits
on the condition variable of its queue instead of polling, and never locks the mutex
first: apart from re-queueing it has the mutex only when it comes back from
`pthread_cond_wait`. So its accesses are steps of their own, between which any other
thread may run. An enqueue, a dequeue, a scan and a test of a queue are one step each
here; in the source they read and write the queue several times, and
`Scheduler.Overlap` takes them apart. `pthread_cond_wait` and `pthread_mutex_unlock`
release the mutex whoever owns it; a waiting CPU may wake up without a signal.
Destroying the mutexes is left out.
-/

namespace Cs342.Scheduler

open Library

/-- A workload, and whether its file can be opened. -/
structure CvWorkload extends Workload where
  opens : Bool

/-- Without the file `parse_and_enqueue` returns at once. -/
def CvWorkload.produces (w : CvWorkload) : Bool :=
  match w.source with
  | .file => w.opens
  | .random => true

variable {p : SchedProps}

/-- What a CPU is about to do. -/
inductive Pc where
  /-- test for the marker at the top of the loop -/
  | top
  /-- test the size of the queue -/
  | sizeTest
  /-- call `pthread_cond_wait` -/
  | waitCall
  /-- wake up and get the mutex back -/
  | waiting (signalled : Bool)
  /-- test for the marker after the waiting loop -/
  | markerTest
  /-- unlock and leave the loop -/
  | leave
  /-- dequeue, or scan for the shortest burst -/
  | take
  /-- dequeue the burst the scan has found -/
  | scanned (pid : ℤ)
  /-- unlock with what has been dequeued -/
  | picked (burst : Option BurstItem)
  /-- run it; then lock to put it back, or finish it -/
  | running (burst : Option BurstItem)
  /-- enqueue what is left of it -/
  | requeueing (burst : BurstItem)
  /-- unlock after that -/
  | requeued
  | exited
  deriving DecidableEq, Repr

/-- Where the producer is: as in `MainPhase`, or about to signal. -/
inductive CvPhase (p : SchedProps) where
  | outside
  | entered (i : Fin p.queuesSize) (a : Action p)
  | leaving (i : Fin p.queuesSize) (a : Action p)
  | signalling (i : Fin p.queuesSize)

structure CvState (p : SchedProps) where
  queues : Fin p.queuesSize → Queue
  finishedQueue : Queue
  todo : List Job
  rrQueueIdx : Fin p.queuesSize
  marked : ℕ
  owner : Fin p.queuesSize → Option (Thread p)
  main : CvPhase p
  pc : Fin p.N → Pc

inductive CvAction (p : SchedProps) where
  | lock (a : Action p)
  | body
  | unlock
  | signal (c : Option (Fin p.N))
  | cpu (c : Fin p.N) (now : ℤ)

namespace CvState

/-- What the producer works on. -/
def view (s : CvState p) : State p :=
  ⟨s.queues, s.finishedQueue, s.todo, s.rrQueueIdx, s.marked, fun _ => .top⟩

def setPc (s : CvState p) (c : Fin p.N) (l : Pc) : CvState p :=
  { s with pc := Function.update s.pc c l }

def setQueue (s : CvState p) (i : Fin p.queuesSize) (q : Queue) : CvState p :=
  { s with queues := Function.update s.queues i q }

def setOwner (s : CvState p) (i : Fin p.queuesSize) (thread : Option (Thread p)) : CvState p :=
  { s with owner := Function.update s.owner i thread }

/-- The signal follows a burst of a file. -/
def signals (p : SchedProps) : Action p → Bool
  | .produce _ _ _ => p.source = .file
  | _ => false

/-- The next step of a CPU; a null burst is used after the unlock. -/
def cpu (s : CvState p) (c : Fin p.N) (now : ℤ) : Option (CvState p) :=
  let i := p.queue c
  let queue := s.queues i
  match s.pc c with
  | .top => queue.atMarker.map fun stop => s.setPc c (if stop then .exited else .sizeTest)
  | .sizeTest => some (s.setPc c (if queue.size = 0 then .waitCall else .markerTest))
  | .waitCall => some ((s.setOwner i none).setPc c (.waiting false))
  | .waiting _ =>
    if s.owner i = none then some ((s.setOwner i (some (.cpu c))).setPc c .sizeTest) else none
  | .markerTest => queue.atMarker.map fun stop => s.setPc c (if stop then .leave else .take)
  | .leave => some ((s.setOwner i none).setPc c .exited)
  | .take =>
    match p.alg with
    | .fcfs | .rr => queue.dequeue.map fun r => (s.setQueue i r.2).setPc c (.picked r.1)
    | .sjf => do
      let head ← queue.head
      let shortest ← queue.scanShortest queue.brk (some head) head
      let cell ← queue.cells shortest
      some (s.setPc c (.scanned cell.data.pid))
  | .scanned pid => (queue.dequeueAt pid).map fun r => (s.setQueue i r.2).setPc c (.picked r.1)
  | .picked burst => some ((s.setOwner i none).setPc c (.running burst))
  | .running burst => do
    let burst ← burst
    if p.alg = .rr ∧ burst.remainingTime > p.Q then
      if s.owner i = none then
        some ((s.setOwner i (some (.cpu c))).setPc c
          (.requeueing { burst with remainingTime := burst.remainingTime - p.Q }))
      else none
    else
      let finished := { burst with
        remainingTime := 0, processorId := (c : ℕ), finishTime := now
        turnaroundTime := now - burst.arrivalTime }
      (s.finishedQueue.enqueue finished).map fun q => { s with finishedQueue := q }.setPc c .top
  | .requeueing burst => (queue.enqueue burst).map fun q => (s.setQueue i q).setPc c .requeued
  | .requeued => some ((s.setOwner i none).setPc c .top)
  | .exited => none

/-- A CPU waits on the condition variable of queue `i`, and no signal is on its way. -/
def asleep (s : CvState p) (i : Fin p.queuesSize) (c : Fin p.N) : Bool :=
  p.queue c = i ∧ s.pc c = .waiting false

def act (produces : Bool) (s : CvState p) : CvAction p → Option (CvState p)
  | .lock a =>
    match s.main, s.view.target a with
    | .outside, some i =>
      if produces = true ∧ s.owner i = none then
        some { s.setOwner i (some .main) with main := .entered i a }
      else none
    | _, _ => none
  | .body =>
    match s.main with
    | .entered i a => (s.view.act a).map fun t =>
      { s with
        queues := t.queues, todo := t.todo, rrQueueIdx := t.rrQueueIdx, marked := t.marked
        main := .leaving i a }
    | _ => none
  | .unlock =>
    match s.main with
    | .leaving i a =>
      some { s.setOwner i none with main := if signals p a then .signalling i else .outside }
    | _ => none
  | .signal none =>
    match s.main with
    | .signalling i => if ∀ c, s.asleep i c = false then some { s with main := .outside } else none
    | _ => none
  | .signal (some c) =>
    match s.main with
    | .signalling i =>
      if s.asleep i c then some { s.setPc c (.waiting true) with main := .outside } else none
    | _ => none
  | .cpu c now => s.cpu c now

end CvState

namespace CvWorkload

def init (w : CvWorkload) (s : CvState w.toSchedProps) : Prop :=
  w.toWorkload.init s.view ∧ (∀ i, s.owner i = none) ∧ s.main = .outside ∧ ∀ c, s.pc c = .top

abbrev act (w : CvWorkload) : CvState w.toSchedProps → CvAction w.toSchedProps →
    Option (CvState w.toSchedProps) := CvState.act w.produces

def system (w : CvWorkload) : System (CvState w.toSchedProps) := System.ofAct w.init w.act

end CvWorkload

/-! ## No access is made under the lock first -/

/-- The next step waits, unlocks, scans or dequeues, and so is to be made by the owner of the
mutex. -/
def Pc.underLock : Pc → Bool
  | .waitCall | .leave | .take | .scanned _ | .picked _ | .requeued => true
  | _ => false

namespace CvState

variable {s t : CvState p} {c : Fin p.N} {produces : Bool} {a : CvAction p}

/-- What an action does, but for the steps of a CPU. -/
inductive ActEffect (produces : Bool) (s : CvState p) : CvAction p → CvState p → Prop
  | lock {a : Action p} {i : Fin p.queuesSize} (main : s.main = .outside)
      (target : s.view.target a = some i) (returns : produces = true) :
      ActEffect produces s (.lock a) { s.setOwner i (some .main) with main := .entered i a }
  | body {a : Action p} {i : Fin p.queuesSize} {t : State p} (main : s.main = .entered i a)
      (step : s.view.act a = some t) :
      ActEffect produces s .body
        { s with
          queues := t.queues, todo := t.todo, rrQueueIdx := t.rrQueueIdx, marked := t.marked
          main := .leaving i a }
  | unlock {a : Action p} {i : Fin p.queuesSize} (main : s.main = .leaving i a) :
      ActEffect produces s .unlock
        { s.setOwner i none with main := if signals p a then .signalling i else .outside }
  | signal {i : Fin p.queuesSize} (main : s.main = .signalling i) :
      ActEffect produces s (.signal none) { s with main := .outside }
  | wake {i : Fin p.queuesSize} {c : Fin p.N} (main : s.main = .signalling i)
      (asleep : s.asleep i c = true) :
      ActEffect produces s (.signal (some c)) { s.setPc c (.waiting true) with main := .outside }
  | cpu {c : Fin p.N} {now : ℤ} {t : CvState p} (step : s.cpu c now = some t) :
      ActEffect produces s (.cpu c now) t

theorem act_effect (hact : s.act produces a = some t) : ActEffect produces s a t := by
  cases a with
  | lock a =>
    simp only [act] at hact
    split at hact
    · next i hmain htarget =>
      split_ifs at hact with hguard
      exact Option.some.inj hact ▸ .lock hmain htarget hguard.1
    · simp at hact
  | body =>
    simp only [act] at hact
    split at hact
    · next i a hmain =>
      obtain ⟨u, hu, rfl⟩ := Option.map_eq_some_iff.mp hact
      exact .body hmain hu
    · simp at hact
  | unlock =>
    simp only [act] at hact
    split at hact
    · next i a hmain => exact Option.some.inj hact ▸ .unlock hmain
    · simp at hact
  | signal woken =>
    cases woken with
    | none =>
      simp only [act] at hact
      split at hact
      · next i hmain =>
        split_ifs at hact
        exact Option.some.inj hact ▸ .signal hmain
      · simp at hact
    | some c =>
      simp only [act] at hact
      split at hact
      · next i hmain =>
        split_ifs at hact with hasleep
        exact Option.some.inj hact ▸ .wake hmain hasleep
      · simp at hact
  | cpu c now => exact .cpu hact

/-- A CPU makes such a step only on a queue whose mutex it owns. -/
def Owned (s : CvState p) : CvAction p → Prop
  | .cpu c _ => (s.pc c).underLock = true → s.owner (p.queue c) = some (.cpu c)
  | _ => True

/-- No CPU makes such a step. -/
def Untouched (s : CvState p) : CvAction p → Prop
  | .cpu c _ => (s.pc c).underLock = false
  | _ => True

/-- No CPU owns a mutex, and none has made such a step. -/
structure NoneOwned (s : CvState p) : Prop where
  owner : ∀ i c, s.owner i ≠ some (.cpu c)
  pc : ∀ c, s.pc c ∈ [.top, .sizeTest, .waitCall, .markerTest, .leave, .take, .exited]

theorem NoneOwned.setOwner (h : s.NoneOwned) {i : Fin p.queuesSize} {thread : Option (Thread p)}
    (ht : thread = none ∨ thread = some .main) :
    ∀ k c, (s.setOwner i thread).owner k ≠ some (.cpu c) := by
  apply (Function.forall_update_iff s.owner fun _ o => ∀ c, o ≠ some (.cpu c)).mpr
  refine ⟨fun c => ?_, fun k _ => h.owner k⟩
  rcases ht with rfl | rfl <;> simp

theorem NoneOwned.setPc (h : s.NoneOwned) {l : Pc}
    (hl : l ∈ [.top, .sizeTest, .waitCall, .markerTest, .leave, .take, .exited]) :
    (s.setPc c l).NoneOwned :=
  { h with
    pc := by
      apply (Function.forall_update_iff s.pc fun _ l =>
        l ∈ [.top, .sizeTest, .waitCall, .markerTest, .leave, .take, .exited]).mpr
      exact ⟨hl, fun d _ => h.pc d⟩ }

theorem NoneOwned.cpu (h : s.NoneOwned) {now : ℤ} (hun : s.Untouched (.cpu c now))
    (hcpu : s.cpu c now = some t) : t.NoneOwned := by
  have hmem := h.pc c
  unfold CvState.cpu at hcpu
  cases hc : s.pc c with
  | top | markerTest =>
    simp only [hc, Option.map_eq_some_iff] at hcpu
    obtain ⟨stop, -, rfl⟩ := hcpu
    exact h.setPc (by cases stop <;> simp)
  | sizeTest =>
    simp only [hc, Option.some.injEq] at hcpu
    subst hcpu
    exact h.setPc (by split_ifs <;> simp)
  | waitCall | leave | take => simp [Untouched, hc, Pc.underLock] at hun
  | waiting | scanned | picked | running | requeueing | requeued => simp [hc] at hmem
  | exited => simp [hc] at hcpu

theorem NoneOwned.step (h : s.NoneOwned) (hun : s.Untouched a) (hact : s.act produces a = some t) :
    t.NoneOwned := by
  cases act_effect hact with
  | lock => exact ⟨h.setOwner (.inr rfl), h.pc⟩
  | body | signal => exact ⟨h.owner, h.pc⟩
  | unlock => exact ⟨h.setOwner (.inl rfl), h.pc⟩
  | @wake i c hmain hasleep =>
    have hmem := h.pc c
    simp [asleep] at hasleep
    simp [hasleep.2] at hmem
  | cpu hcpu => exact h.cpu hun hcpu

theorem NoneOwned.owned_iff (h : s.NoneOwned) (a : CvAction p) : s.Owned a ↔ s.Untouched a := by
  cases a with
  | cpu c now =>
    have hne := h.owner (p.queue c) c
    simp [Owned, Untouched, hne]
  | lock | body | unlock | signal => exact .rfl

end CvState

namespace CvWorkload

variable {w : CvWorkload} {s : CvState w.toSchedProps} {as : List (CvAction w.toSchedProps)}

theorem noneOwned_init (h : w.init s) : s.NoneOwned := by
  obtain ⟨-, howner, -, hpc⟩ := h
  exact ⟨by simp [howner], by simp [hpc]⟩

/-- The CPUs work under the lock in exactly the runs in which none of them waits, unlocks, scans
or dequeues at all. -/
theorem under_lock (h : w.init s) :
    System.Meets w.act CvState.Owned s as ↔ System.Meets w.act CvState.Untouched s as :=
  System.meets_congr (I := CvState.NoneOwned) (noneOwned_init h)
    (fun _ _ _ hs hun hact => hs.step hun hact) fun _ a hs => hs.owned_iff a

/-- One CPU, and no bursts. -/
def idle : CvWorkload := ⟨Locked.idle, true⟩

def start (w : CvWorkload) : CvState w.toSchedProps :=
  ⟨fun _ => Queue.empty 0, Queue.empty 0, w.jobs, ⟨0, w.queuesSize_pos w.N_pos⟩, 0,
    fun _ => none, .outside, fun _ => .top⟩

theorem init_start (w : CvWorkload) : w.init w.start :=
  ⟨⟨fun _ => ⟨0, rfl⟩, ⟨0, rfl⟩, rfl, rfl, rfl, fun _ => rfl⟩, fun _ => rfl, rfl, fun _ => rfl⟩

/-- The CPU finds its queue empty and waits. -/
def idleWait : List (CvAction idle.toSchedProps) := List.replicate 3 (.cpu (Fin.last 0) 0)

theorem under_lock_idleWait :
    System.Meets idle.act CvState.Owned idle.start idleWait ↔
      System.Meets idle.act CvState.Untouched idle.start idleWait :=
  under_lock idle.init_start

/-- It waits with a mutex it does not own. -/
theorem not_under_lock_idleWait :
    idle.init idle.start ∧ ¬ System.Meets idle.act CvState.Owned idle.start idleWait := by
  refine ⟨idle.init_start, fun h => ?_⟩
  let before : CvState idle.toSchedProps :=
    (System.perform idle.act (List.replicate 2 (.cpu (Fin.last 0) 0)) idle.start).get
      (by decide +kernel)
  let after : CvState idle.toSchedProps :=
    (idle.act before (.cpu (Fin.last 0) 0)).get (by decide +kernel)
  have hsplit : System.Meets idle.act CvState.Owned idle.start
      (List.replicate 2 (.cpu (Fin.last 0) 0) ++ .cpu (Fin.last 0) 0 :: []) := h
  have howned := hsplit.of_perform (t := before) (u := after) (Option.some_get _).symm
    (Option.some_get _).symm
  exact absurd (howned (by decide +kernel)) (by decide +kernel)

end CvWorkload

end Cs342.Scheduler
