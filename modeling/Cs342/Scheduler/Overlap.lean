import Cs342.Scheduler.QueueAccess
import Cs342.Scheduler.Wakeup

/-!
# Accesses that overlap (sched_cv.c)

What the threads do with a queue, access by access. As the CPUs take no lock first, their
accesses may overlap with those of the producer and of each other. Each action makes one
step: a thread begins an access, reads or writes once, or comes back from it; all other
steps are those of `CvState`.

As long as no access that writes to a queue overlaps with another one to that queue, each of
them could as well have been made at its end in one step, and `CvState` does so.
-/

namespace Cs342.Scheduler

open Library

variable {p : SchedProps}

namespace State

/-- What a section of the producer enqueues. -/
def item (s : State p) : Action p → Option BurstItem
  | .produce arrivalTime seen unset =>
    s.todo.head?.map fun j =>
      p.mkBurst j arrivalTime (p.select s.queueZero s.rrQueueIdx seen) unset
  | .mark => some endMarker
  | .cpu _ _ => none

/-- What it keeps in mind besides. -/
def advance (s : State p) : Action p → State p
  | .produce _ _ _ => { s with todo := s.todo.tail, rrQueueIdx := p.nextIdx s.rrQueueIdx }
  | .mark => { s with marked := s.marked + 1 }
  | .cpu _ _ => s

variable {s : State p} {a : Action p} {i : Fin p.queuesSize}

theorem exists_item (ha : s.target a = some i) : ∃ b, s.item a = some b := by
  cases a with
  | produce arrivalTime seen unset =>
    cases htodo : s.todo with
    | nil => simp [target, htodo] at ha
    | cons j todo => exact ⟨_, by rw [item, htodo]; rfl⟩
  | mark => exact ⟨_, rfl⟩
  | cpu c now => simp [target] at ha

theorem act_eq {b : BurstItem} {q : Queue} (ha : s.target a = some i) (hb : s.item a = some b)
    (hq : (s.queues i).enqueue b = some q) : s.act a = some ((s.advance a).setQueue i q) := by
  cases a with
  | produce arrivalTime seen unset =>
    cases htodo : s.todo with
    | nil => simp [target, htodo] at ha
    | cons j todo =>
      obtain rfl : p.select s.queueZero s.rrQueueIdx seen = i := by simpa [target, htodo] using ha
      obtain rfl : p.mkBurst j arrivalTime (p.select s.queueZero s.rrQueueIdx seen) unset = b := by
        simpa [item, htodo] using hb
      simp only [queueZero] at hq
      simp [act, produce, htodo, hq, advance, setQueue, queueZero]
  | mark =>
    obtain rfl : endMarker = b := Option.some.inj hb
    simp only [target] at ha
    split_ifs at ha with htodo hmarked
    obtain rfl := Option.some.inj ha
    simp [act, mark, htodo, hmarked, hq, advance, setQueue]
  | cpu c now => simp [target] at ha

end State

/-! ## Threads and their accesses -/

/-- What an access of a thread leads to: for a CPU, what it is about to do then. -/
def Thread.Result : Thread p → Type
  | .main => Unit
  | .cpu _ => Pc

open Queue in
/-- What a CPU does with its queue. -/
def Pc.visit (i : Fin p.queuesSize) (alg : SchedulingAlgorithm) :
    Pc → Option (Visit (Fin p.queuesSize) Queue Pc)
  | .top => some <| .reader i ((fun stop => if stop then .exited else .sizeTest) <$> markerSteps)
    fun _ => Access.quiet_map quiet_markerSteps
  | .sizeTest => some <| .reader i
    ((fun size => if size = 0 then .waitCall else .markerTest) <$> Access.get Queue.size)
    fun _ => Access.quiet_map (Access.quiet_get _)
  | .markerTest => some <| .reader i
    ((fun stop => if stop then .leave else .take) <$> markerSteps)
    fun _ => Access.quiet_map quiet_markerSteps
  | .take =>
    match alg with
    | .fcfs | .rr => some <| .writer i (.picked <$> dequeueSteps)
    | .sjf => some <| .reader i (.scanned <$> shortestSteps)
      fun _ => Access.quiet_map quiet_shortestSteps
  | .scanned pid => some <| .writer i (.picked <$> dequeueAtSteps pid)
  | .requeueing burst => some <| .writer i ((fun _ => .requeued) <$> enqueueSteps burst)
  | _ => none

namespace CvState

/-- The access that a thread is about to make. -/
def visit (s : CvState p) : (x : Thread p) → Option (Visit (Fin p.queuesSize) Queue x.Result)
  | .main =>
    match s.main with
    | .entered i a => (s.view.item a).map fun b => .writer i (Queue.enqueueSteps b)
    | _ => none
  | .cpu c => (s.pc c).visit (p.queue c) p.alg

/-- A thread comes back from its access. -/
def returned (s : CvState p) : (x : Thread p) → x.Result → CvState p
  | .main, _ =>
    match s.main with
    | .entered i a =>
      let t := s.view.advance a
      { s with
        todo := t.todo, rrQueueIdx := t.rrQueueIdx, marked := t.marked, main := .leaving i a }
    | _ => s
  | .cpu c, l => s.setPc c l

end CvState

/-- The thread whose access to a queue the action may be. -/
def CvAction.thread : CvAction p → Option (Thread p)
  | .body => some .main
  | .cpu c _ => some (.cpu c)
  | _ => none

/-- With `left`, what a thread in the middle of an access has still to do. -/
structure FineState (p : SchedProps) where
  base : CvState p
  left : (x : Thread p) → Option (Access Queue x.Result)

namespace FineState

/-- A thread that visits queue `i` goes on. -/
def proceed (s : FineState p) (x : Thread p) (i : Fin p.queuesSize) :
    Access Queue x.Result → Option (FineState p)
  | .ret r => some ⟨s.base.returned x r, Function.update s.left x none⟩
  | .fail => none
  | .step change next =>
    let q := s.base.queues i
    some ⟨s.base.setQueue i (change q), Function.update s.left x (some (next q))⟩

def act (produces : Bool) (s : FineState p) (a : CvAction p) : Option (FineState p) :=
  match a.thread with
  | none => (s.base.act produces a).map fun t => { s with base := t }
  | some x =>
    match s.base.visit x, s.left x with
    | none, _ => (s.base.act produces a).map fun t => { s with base := t }
    | some v, none => some { s with left := Function.update s.left x (some v.access) }
    | some v, some access => s.proceed x v.place access

/-- A thread is in the middle of an access. -/
def Inside (s : FineState p) (x : Thread p) : Prop := s.left x ≠ none

instance (s : FineState p) : DecidablePred s.Inside := fun _ =>
  decidable_of_iff _ Option.isSome_iff_ne_none

/-- Whoever begins an access finds nobody in the middle of one to the same queue, unless both only
read; and the CPUs of a queue are awake when its marker begins to be enqueued, and when a burst
begins to be put back after that. -/
def Undisturbed (s : FineState p) (a : CvAction p) : Prop :=
  ∀ x ∈ a.thread, ¬ s.Inside x →
    s.base.Noticed a ∧ ∀ v ∈ s.base.visit x, ∀ y, s.Inside y → ∀ w ∈ s.base.visit y,
      w.place = v.place → v.writes = false ∧ w.writes = false

instance (P : Thread p → Prop) [DecidablePred P] : Decidable (∀ x, P x) :=
  decidable_of_iff (P .main ∧ ∀ c, P (.cpu c))
    ⟨fun h x => by cases x with
      | main => exact h.1
      | cpu c => exact h.2 c, fun h => ⟨h _, fun c => h _⟩⟩

instance (s : FineState p) : DecidablePred s.Undisturbed := fun a =>
  inferInstanceAs (Decidable (∀ x ∈ a.thread, ¬ s.Inside x →
    s.base.Noticed a ∧ ∀ v ∈ s.base.visit x, ∀ y, s.Inside y → ∀ w ∈ s.base.visit y,
      w.place = v.place → v.writes = false ∧ w.writes = false))

end FineState

/-! ## The queues as they would be -/

namespace CvState

variable {s t : CvState p} {qs : Fin p.queuesSize → Queue} {c : Fin p.N} {now : ℤ}
  {produces : Bool} {a : CvAction p}

def withQueues (s : CvState p) (qs : Fin p.queuesSize → Queue) : CvState p :=
  { s with queues := qs }

theorem target_withQueues (b : Action p) :
    (s.withQueues qs).view.target b = s.view.target b := by
  cases b <;> rfl

theorem visit_withQueues (x : Thread p) : (s.withQueues qs).visit x = s.visit x := by
  cases x with
  | cpu c => rfl
  | main =>
    cases hmain : s.main with
    | outside | leaving | signalling => simp only [visit, withQueues, hmain]
    | entered i b => cases b <;> simp only [visit, withQueues, hmain] <;> rfl

theorem visit_cpu {v : Visit (Fin p.queuesSize) Queue Pc} (hv : s.visit (.cpu c) = some v) :
    v.place = p.queue c := by
  simp only [visit] at hv
  cases hc : s.pc c <;> simp only [hc, Pc.visit] at hv
  case take => cases halg : p.alg <;> simp only [halg] at hv <;> cases hv <;> rfl
  all_goals first | cases hv; rfl | cases hv

@[simp] theorem setQueue_self (s : CvState p) (i : Fin p.queuesSize) :
    s.setQueue i (s.queues i) = s := by
  rw [setQueue, Function.update_eq_self]

open Queue in
/-- What a CPU does in one step is what it comes to with its access. -/
theorem cpu_eq {v : Visit (Fin p.queuesSize) Queue Pc} {l : Pc} {q : Queue}
    (hv : s.visit (.cpu c) = some v) (hrun : v.access.run (s.queues (p.queue c)) = some (l, q)) :
    s.cpu c now = some ((s.setQueue (p.queue c) q).setPc c l) := by
  simp only [visit] at hv
  cases hc : s.pc c <;> simp only [hc, Pc.visit, reduceCtorEq] at hv
  case top | markerTest =>
    cases hv
    simp only [Visit.reader, Access.run_map, run_markerSteps, Option.map_map,
      Option.map_eq_some_iff] at hrun
    obtain ⟨stop, hstop, hl⟩ := hrun
    obtain ⟨rfl, rfl⟩ := Prod.mk.inj hl
    simp [CvState.cpu, hc, hstop]
  case sizeTest =>
    cases hv
    obtain ⟨rfl, rfl⟩ := Prod.mk.inj (Option.some.inj hrun)
    simp [CvState.cpu, hc]
  case take =>
    cases halg : p.alg with
    | fcfs | rr =>
      simp only [halg] at hv
      cases hv
      simp only [Visit.writer, Access.run_map, run_dequeueSteps, Option.map_eq_some_iff] at hrun
      obtain ⟨r, hr, hl⟩ := hrun
      obtain ⟨rfl, rfl⟩ := Prod.mk.inj hl
      simp [CvState.cpu, hc, halg, hr]
    | sjf =>
      simp only [halg] at hv
      cases hv
      simp only [Visit.reader, Access.run_map, run_shortestSteps, Option.map_eq_some_iff,
        Option.bind_eq_some_iff] at hrun
      obtain ⟨-, ⟨head, hhead, shortest, hscan, cell, hcell, rfl⟩, hl⟩ := hrun
      obtain ⟨rfl, rfl⟩ := Prod.mk.inj hl
      simp [CvState.cpu, hc, halg, hhead, hscan, hcell]
  case scanned pid =>
    cases hv
    simp only [Visit.writer, Access.run_map, run_dequeueAtSteps, Option.map_eq_some_iff] at hrun
    obtain ⟨r, hr, hl⟩ := hrun
    obtain ⟨rfl, rfl⟩ := Prod.mk.inj hl
    simp [CvState.cpu, hc, hr]
  case requeueing burst =>
    cases hv
    simp only [Visit.writer, Access.run_map, run_enqueueSteps, Option.map_map,
      Option.map_eq_some_iff] at hrun
    obtain ⟨q', hq, hl⟩ := hrun
    obtain ⟨rfl, rfl⟩ := Prod.mk.inj hl
    simp [CvState.cpu, hc, hq]

/-- The producer is in a section whose queue is the one it has locked. -/
def Targeted (s : CvState p) : Prop := ∀ i b, s.main = .entered i b → s.view.target b = some i

open Queue in
theorem body_eq (htarget : s.Targeted) {v : Visit (Fin p.queuesSize) Queue Unit} {q : Queue}
    (hv : s.visit .main = some v) (hrun : v.access.run (s.queues v.place) = some ((), q)) :
    s.act produces .body = some ((s.setQueue v.place q).returned .main ()) := by
  cases hmain : s.main with
  | outside | leaving | signalling => simp [visit, hmain] at hv
  | entered i b =>
    simp only [visit, hmain] at hv
    obtain ⟨item, hitem, hv⟩ := Option.map_eq_some_iff.mp hv
    cases hv
    simp only [Visit.writer, run_enqueueSteps, Option.map_eq_some_iff] at hrun
    obtain ⟨q', hq, hl⟩ := hrun
    obtain ⟨-, rfl⟩ := Prod.mk.inj hl
    have hact : s.view.act b = some ((s.view.advance b).setQueue i q') :=
      State.act_eq (htarget i b hmain) hitem hq
    have hmain' : (s.setQueue i q').main = .entered i b := hmain
    simp only [act, hmain, hact, Option.map_some, returned, Visit.writer, hmain']
    cases b <;> rfl

/-- So it is for every thread. -/
theorem act_eq (htarget : s.Targeted) {x : Thread p} {v : Visit (Fin p.queuesSize) Queue x.Result}
    {r : x.Result} {q : Queue} (hx : a.thread = some x) (hv : s.visit x = some v)
    (hrun : v.access.run (s.queues v.place) = some (r, q)) :
    s.act produces a = some ((s.setQueue v.place q).returned x r) := by
  cases a with
  | lock | unlock | signal => simp [CvAction.thread] at hx
  | cpu c now =>
    obtain rfl := Option.some.inj hx
    have hplace := visit_cpu hv
    rw [hplace] at hrun ⊢
    exact cpu_eq hv hrun
  | body =>
    obtain rfl := Option.some.inj hx
    exact body_eq htarget hv hrun

theorem targeted_withQueues : (s.withQueues qs).Targeted ↔ s.Targeted := by
  simp only [Targeted, target_withQueues]
  rfl

/-! ## Steps beside the queues -/

/-- A step that is no access to a queue. -/
structure Beside (s t : CvState p) : Prop where
  queues : t.queues = s.queues
  todo : t.todo = s.todo
  rrQueueIdx : t.rrQueueIdx = s.rrQueueIdx
  marked : t.marked = s.marked
  main : s.visit .main ≠ none → t.main = s.main
  pc : ∀ c, s.visit (.cpu c) ≠ none → t.pc c = s.pc c
  asleep : ∀ c, (t.pc c).isAsleep = true → (s.pc c).isAsleep = true

theorem visit_main_eq_none (hmain : ∀ i b, s.main ≠ .entered i b) : s.visit .main = none := by
  cases h : s.main with
  | entered i b => exact absurd h (hmain i b)
  | outside | leaving | signalling => simp [visit, h]

theorem Beside.setOwner {i : Fin p.queuesSize} {thread : Option (Thread p)} (h : Beside s t) :
    Beside s (t.setOwner i thread) :=
  { h with }

theorem Beside.setPc {l : Pc} (h : Beside s t) (hv : s.visit (.cpu c) = none)
    (hl : l.isAsleep = true → (s.pc c).isAsleep = true) : Beside s (t.setPc c l) :=
  { h with
    pc := fun d hd => by
      have hdc : d ≠ c := by
        rintro rfl
        exact hd hv
      simpa [CvState.setPc, hdc] using h.pc d hd
    asleep := by
      apply (Function.forall_update_iff t.pc fun d l =>
        l.isAsleep = true → (s.pc d).isAsleep = true).mpr
      exact ⟨hl, fun d _ => h.asleep d⟩ }

theorem Beside.setMain {phase : CvPhase p} (h : Beside s t) (hv : s.visit .main = none) :
    Beside s { t with main := phase } :=
  { h with main := fun hne => absurd hv hne }

theorem Beside.refl (s : CvState p) : Beside s s :=
  ⟨rfl, rfl, rfl, rfl, fun _ => rfl, fun _ _ => rfl, fun _ => id⟩

theorem Beside.visit_eq (h : Beside s t) {x : Thread p} (hx : s.visit x ≠ none) :
    t.visit x = s.visit x := by
  cases x with
  | cpu c => rw [visit, h.pc c hx]; rfl
  | main =>
    have hitem (b : Action p) : t.view.item b = s.view.item b := by
      obtain ⟨queues, finishedQueue, todo, rrQueueIdx, marked, owner, main, pc⟩ := t
      obtain ⟨rfl, rfl⟩ : todo = s.todo ∧ rrQueueIdx = s.rrQueueIdx := ⟨h.todo, h.rrQueueIdx⟩
      cases b <;> rfl
    simp only [visit, h.main hx, hitem]

theorem cpu_beside (qs : Fin p.queuesSize → Queue) (hv : s.visit (.cpu c) = none)
    (hcpu : s.cpu c now = some t) :
    Beside s t ∧ (s.withQueues qs).cpu c now = some (t.withQueues qs) := by
  have hpc : (s.withQueues qs).pc c = s.pc c := rfl
  have howner : (s.withQueues qs).owner = s.owner := rfl
  have hvisit := hv
  simp only [visit] at hvisit
  unfold CvState.cpu at hcpu ⊢
  cases hc : s.pc c with
  | top | sizeTest | markerTest | scanned | requeueing => simp [hc, Pc.visit] at hvisit
  | take => cases halg : p.alg <;> simp [hc, Pc.visit, halg] at hvisit
  | waitCall =>
    simp only [hc, Option.some.injEq] at hcpu
    subst hcpu
    exact ⟨(Beside.refl s).setOwner.setPc hv (by simp [hc, Pc.isAsleep]), by simp [hpc, hc]; rfl⟩
  | leave | picked | requeued =>
    simp only [hc, Option.some.injEq] at hcpu
    subst hcpu
    exact ⟨(Beside.refl s).setOwner.setPc hv (by simp [Pc.isAsleep]), by simp [hpc, hc]; rfl⟩
  | waiting signalled =>
    simp only [hc, Option.ite_none_right_eq_some, Option.some.injEq] at hcpu
    obtain ⟨hfree, rfl⟩ := hcpu
    exact ⟨(Beside.refl s).setOwner.setPc hv (by simp [Pc.isAsleep]),
      by simp [hpc, hc, howner, hfree]; rfl⟩
  | running burst =>
    simp only [hc, Option.bind_eq_bind, Option.bind_eq_some_iff] at hcpu
    obtain ⟨b, rfl, hcpu⟩ := hcpu
    split_ifs at hcpu with hslice hfree
    · obtain rfl := Option.some.inj hcpu
      exact ⟨(Beside.refl s).setOwner.setPc hv (by simp [Pc.isAsleep]),
        by simp [hpc, hc, howner, hslice, hfree]; rfl⟩
    · obtain ⟨q, hq, rfl⟩ := Option.map_eq_some_iff.mp hcpu
      have hfin : Beside s { s with finishedQueue := q } := { Beside.refl s with }
      refine ⟨hfin.setPc hv (by simp [Pc.isAsleep]), ?_⟩
      have hfinished : (s.withQueues qs).finishedQueue = s.finishedQueue := rfl
      simp [hpc, hc, hslice, hfinished, hq]
      rfl
  | exited => simp [hc] at hcpu

/-- It does not depend on the queues, and leaves the accesses of others as they are. -/
theorem act_beside (qs : Fin p.queuesSize → Queue) (htarget : s.Targeted)
    (hv : ∀ x ∈ a.thread, s.visit x = none) (hact : s.act produces a = some t) :
    Beside s t ∧ (s.withQueues qs).act produces a = some (t.withQueues qs) := by
  cases a with
  | cpu c now => exact cpu_beside qs (hv _ rfl) hact
  | lock b =>
    simp only [act] at hact ⊢
    rw [target_withQueues]
    split at hact
    · next i hmain htarget =>
      split_ifs at hact with hguard
      obtain rfl := Option.some.inj hact
      have hmain' : (s.withQueues qs).main = .outside := hmain
      have howner : (s.withQueues qs).owner i = none := hguard.2
      refine ⟨(Beside.refl s).setOwner.setMain (visit_main_eq_none (by simp [hmain])), ?_⟩
      simp only [hmain', htarget, if_pos (And.intro hguard.1 howner)]
      rfl
    · simp at hact
  | body =>
    simp only [act] at hact ⊢
    cases hmain : s.main with
    | outside | leaving | signalling => simp [hmain] at hact
    | entered i b =>
      obtain ⟨item, hitem⟩ := State.exists_item (htarget i b hmain)
      have := hv .main rfl
      simp [visit, hmain, hitem] at this
  | unlock =>
    simp only [act] at hact ⊢
    split at hact
    · next i b hmain =>
      obtain rfl := Option.some.inj hact
      have hmain' : (s.withQueues qs).main = .leaving i b := hmain
      refine ⟨(Beside.refl s).setOwner.setMain (visit_main_eq_none (by simp [hmain])), ?_⟩
      rw [hmain']
      rfl
    · simp at hact
  | signal woken =>
    cases woken with
    | none =>
      simp only [act] at hact ⊢
      split at hact
      · next i hmain =>
        split_ifs at hact with hnone
        obtain rfl := Option.some.inj hact
        have hmain' : (s.withQueues qs).main = .signalling i := hmain
        refine ⟨(Beside.refl s).setMain (visit_main_eq_none (by simp [hmain])), ?_⟩
        simp only [hmain']
        exact if_pos hnone
      · simp at hact
    | some c =>
      simp only [act] at hact ⊢
      split at hact
      · next i hmain =>
        split_ifs at hact with hasleep
        obtain rfl := Option.some.inj hact
        have hc : s.pc c = .waiting false := by
          simp only [asleep, decide_eq_true_eq] at hasleep
          exact hasleep.2
        have hmain' : (s.withQueues qs).main = .signalling i := hmain
        have hvisit : s.visit (.cpu c) = none := by rw [visit, hc]; rfl
        refine ⟨((Beside.refl s).setPc hvisit (by simp [Pc.isAsleep])).setMain
          (visit_main_eq_none (by simp [hmain])), ?_⟩
        simp only [hmain']
        exact if_pos hasleep
      · simp at hact

/-! ## Staying awake -/

variable {i : Fin p.queuesSize}

theorem Beside.awake (h : Beside s t) (hi : s.Awake i) : t.Awake i := by
  intro c hc
  by_contra hasleep
  have := h.asleep c (by simpa using hasleep)
  simp [hi c hc] at this

theorem Beside.noticed (h : Beside s t) (hvisit : ∀ x ∈ a.thread, s.visit x ≠ none)
    (hn : s.Noticed a) : t.Noticed a := by
  cases a with
  | lock | unlock | signal => trivial
  | body =>
    intro i hi
    rw [h.main (hvisit _ rfl)] at hi
    exact h.awake (hn i hi)
  | cpu c now =>
    intro hrequeueing hmarked
    rw [h.pc c (hvisit _ rfl)] at hrequeueing
    rw [h.marked] at hmarked
    exact h.awake (hn hrequeueing hmarked)

variable {x y : Thread p} {v : Visit (Fin p.queuesSize) Queue y.Result} {r : y.Result}

theorem returned_pc (hne : .cpu c ≠ y) : (s.returned y r).pc c = s.pc c := by
  cases y with
  | main => cases hmain : s.main <;> simp only [returned, hmain]
  | cpu d =>
    have hcd : c ≠ d := fun h => hne (congrArg Thread.cpu h)
    exact Function.update_of_ne hcd _ _

/-- Who comes back from an access to one queue puts nobody to sleep at another one. -/
theorem awake_returned (hv : s.visit y = some v) (hi : i ≠ v.place) (hawake : s.Awake i) :
    (s.returned y r).Awake i := by
  intro c hc
  have hne : .cpu c ≠ y := by
    rintro rfl
    exact hi (hc.symm.trans (visit_cpu hv).symm)
  rw [returned_pc hne]
  exact hawake c hc

theorem visit_returned (hne : x ≠ y) : (s.returned y r).visit x = s.visit x := by
  cases x with
  | cpu c => rw [visit, returned_pc hne]; rfl
  | main =>
    cases y with
    | main => exact absurd rfl hne
    | cpu d => rfl

theorem returned_queues : (s.returned y r).queues = s.queues := by
  cases y with
  | cpu d => rfl
  | main => cases hmain : s.main <;> simp only [returned, hmain]

theorem returned_withQueues (i : Fin p.queuesSize) (q : Queue) :
    ((s.withQueues qs).setQueue i q).returned y r =
      (s.returned y r).withQueues (Function.update qs i q) := by
  cases y with
  | cpu d => rfl
  | main =>
    cases hmain : s.main with
    | outside | leaving | signalling =>
      simp only [returned, withQueues, setQueue, hmain]
    | entered k b => cases b <;> simp only [returned, withQueues, setQueue, hmain] <;> rfl

theorem noticed_iff_of_thread {b : CvAction p} (ha : a.thread = some x) (hb : b.thread = some x) :
    s.Noticed b ↔ s.Noticed a := by
  cases a <;> cases b <;> simp only [CvAction.thread, Option.some.injEq, reduceCtorEq] at ha hb
  · rfl
  · simp [← ha] at hb
  · simp [← ha] at hb
  · obtain rfl := Thread.cpu.inj (ha.trans hb.symm)
    rfl

/-- A thread that writes to a queue is not concerned with who comes back from another one. -/
theorem noticed_returned (htarget : s.Targeted) (hv : s.visit y = some v) (hx : a.thread = some x)
    (hne : x ≠ y) (hplace : ∀ w ∈ s.visit x, w.writes = true → w.place ≠ v.place)
    (hn : s.Noticed a) : (s.returned y r).Noticed a := by
  cases a with
  | lock | unlock | signal => trivial
  | body =>
    obtain rfl := Option.some.inj hx
    cases y with
    | main => exact absurd rfl hne
    | cpu d =>
      intro i hi
      have hi : i ∈ s.main.marking := hi
      refine awake_returned hv ?_ (hn i hi)
      cases hmain : s.main with
      | outside | leaving | signalling => simp [hmain, CvPhase.marking] at hi
      | entered k b =>
        cases b with
        | produce | cpu => simp [hmain, CvPhase.marking] at hi
        | mark =>
          obtain rfl : k = i := by simpa [hmain, CvPhase.marking] using hi
          refine hplace (.writer k (Queue.enqueueSteps endMarker)) ?_ rfl
          simp [visit, hmain, State.item]
  | cpu c now =>
    obtain rfl := Option.some.inj hx
    intro hrequeueing hmarked
    rw [returned_pc hne] at hrequeueing
    have hqueue : p.queue c ≠ v.place := by
      cases hc : s.pc c <;> simp only [hc, Pc.isRequeueing, reduceCtorEq] at hrequeueing
      next burst =>
        exact hplace (.writer (p.queue c) ((fun _ => .requeued) <$> Queue.enqueueSteps burst))
          (by rw [visit, hc]; rfl) rfl
    refine awake_returned hv hqueue (hn hrequeueing ?_)
    cases y with
    | cpu d => exact hmarked
    | main =>
      cases hmain : s.main with
      | outside | leaving | signalling => simp [visit, hmain] at hv
      | entered k b =>
        simp only [returned, hmain] at hmarked
        cases b with
        | produce | cpu => exact hmarked
        | mark =>
          have hk : k.val = s.marked := by
            have := htarget k .mark hmain
            simp only [State.target] at this
            split_ifs at this
            exact congrArg Fin.val (Option.some.inj this).symm
          have hplace : v.place = k := by
            simp only [visit, hmain, State.item] at hv
            cases hv
            rfl
          have hne : (p.queue c).val ≠ s.marked := fun h =>
            hqueue ((Fin.ext (h.trans hk.symm)).trans hplace.symm)
          have hmarked : (p.queue c).val < s.marked + 1 := hmarked
          omega

end CvState

/-! ## What a step does -/

namespace FineState

variable {s t : FineState p} {produces : Bool} {a : CvAction p} {settled : Fin p.queuesSize → Queue}

inductive Effect (produces : Bool) (s : FineState p) : CvAction p → FineState p → Prop
  | beside {a : CvAction p} {t : CvState p} (visit : ∀ x ∈ a.thread, s.base.visit x = none)
      (step : s.base.act produces a = some t) : Effect produces s a { s with base := t }
  | enter {a : CvAction p} {x : Thread p} {v : Visit (Fin p.queuesSize) Queue x.Result}
      (thread : a.thread = some x) (visit : s.base.visit x = some v) (outside : s.left x = none) :
      Effect produces s a { s with left := Function.update s.left x (some v.access) }
  | step {a : CvAction p} {x : Thread p} {v : Visit (Fin p.queuesSize) Queue x.Result}
      {change : Queue → Queue} {next : Queue → Access Queue x.Result}
      (thread : a.thread = some x) (visit : s.base.visit x = some v)
      (left : s.left x = some (.step change next)) :
      Effect produces s a
        ⟨s.base.setQueue v.place (change (s.base.queues v.place)),
          Function.update s.left x (some (next (s.base.queues v.place)))⟩
  | leave {a : CvAction p} {x : Thread p} {v : Visit (Fin p.queuesSize) Queue x.Result}
      {r : x.Result} (thread : a.thread = some x) (visit : s.base.visit x = some v)
      (left : s.left x = some (.ret r)) :
      Effect produces s a ⟨s.base.returned x r, Function.update s.left x none⟩

theorem act_effect (hact : s.act produces a = some t) : Effect produces s a t := by
  unfold act at hact
  cases ha : a.thread with
  | none =>
    simp only [ha, Option.map_eq_some_iff] at hact
    obtain ⟨u, hu, rfl⟩ := hact
    exact .beside (by simp [ha]) hu
  | some x =>
    simp only [ha] at hact
    cases hv : s.base.visit x with
    | none =>
      simp only [hv, Option.map_eq_some_iff] at hact
      obtain ⟨u, hu, rfl⟩ := hact
      exact .beside (by simpa [ha] using hv) hu
    | some v =>
      cases hx : s.left x with
      | none =>
        simp only [hv, hx, Option.some.injEq] at hact
        exact hact ▸ .enter ha hv hx
      | some access =>
        simp only [hv, hx] at hact
        cases access with
        | ret r => exact Option.some.inj hact ▸ .leave ha hv hx
        | fail => simp [proceed] at hact
        | step change next => exact Option.some.inj hact ▸ .step ha hv hx

/-- With the queues as they were before the accesses that have not come to their end, the state is
one of `CvState`; and the CPUs of a queue stay awake while its marker is enqueued, and while a burst
is put back after that. -/
structure Inv (s : FineState p) (settled : Fin p.queuesSize → Queue) : Prop where
  apart : Apart s.base.visit s.left settled s.base.queues
  inv : (s.base.withQueues settled).Inv
  noticed : ∀ a, ∀ x ∈ a.thread, s.Inside x → s.base.Noticed a

theorem inside_update {x y : Thread p} {o : Option (Access Queue x.Result)} {base : CvState p}
    (hyx : y ≠ x) : Inside ⟨base, Function.update s.left x o⟩ y ↔ s.Inside y := by
  simp only [Inside, Function.update_of_ne hyx]

namespace Inv

theorem visit_ne_none (h : s.Inv settled) {x : Thread p} (hx : s.Inside x) :
    s.base.visit x ≠ none := by
  obtain ⟨access, hleft⟩ := Option.ne_none_iff_exists'.mp hx
  obtain ⟨v, hv, -⟩ := h.apart.visits x access hleft
  simp [Option.mem_def.mp hv]

/-- A step is nothing to the settled state, or the same step of it. -/
theorem step (hQ : p.alg = .rr → 1 ≤ p.Q) (h : s.Inv settled) (hd : s.Undisturbed a)
    (hact : s.act produces a = some t) : ∃ settled', t.Inv settled' ∧
      (t.base.withQueues settled' = s.base.withQueues settled ∨
        (s.base.withQueues settled).act produces a = some (t.base.withQueues settled')) := by
  have htarget : (s.base.withQueues settled).Targeted := h.inv.target
  cases act_effect hact with
  | @beside u hvisit hstep =>
    have hn : s.base.Noticed a := by
      cases a with
      | lock | unlock | signal => trivial
      | body | cpu =>
        refine (hd _ rfl fun hinside => ?_).1
        exact h.visit_ne_none hinside (hvisit _ rfl)
    obtain ⟨hbeside, hsettled⟩ := CvState.act_beside settled
      (CvState.targeted_withQueues.mp htarget) hvisit hstep
    refine ⟨settled, ⟨?_, h.inv.step hQ hn hsettled, ?_⟩, .inr hsettled⟩
    · rw [hbeside.queues]
      exact h.apart.congr fun x hx => hbeside.visit_eq (h.visit_ne_none hx)
    · intro b x hx hinside
      refine hbeside.noticed ?_ (h.noticed b x hx hinside)
      rintro y hy
      obtain rfl := Option.mem_unique hx hy
      exact h.visit_ne_none hinside
  | @enter x v hx hv hleft =>
    obtain ⟨hn, hfree⟩ := hd x hx (not_not_intro hleft)
    refine ⟨settled, ⟨h.apart.enter hleft hv (hfree v hv), h.inv, ?_⟩, .inl rfl⟩
    intro b y hy hinside
    rcases eq_or_ne y x with rfl | hyx
    · exact (CvState.noticed_iff_of_thread hx hy).mpr hn
    · exact h.noticed b y hy ((inside_update hyx).mp hinside)
  | @step x v change next hx hv hleft =>
    refine ⟨settled, ⟨h.apart.step hleft hv, h.inv, ?_⟩, .inl rfl⟩
    intro b y hy hinside
    have hn : s.base.Noticed b := by
      refine h.noticed b y hy ?_
      rcases eq_or_ne y x with rfl | hyx
      · simp [Inside, hleft]
      · exact (inside_update hyx).mp hinside
    cases b <;> exact hn
  | @leave x v r hx hv hleft =>
    have hinside : s.Inside x := by simp [Inside, hleft]
    have hvisit (y : Thread p) (hy : y ≠ x) : (s.base.returned x r).visit y = s.base.visit y :=
      CvState.visit_returned hy
    obtain ⟨hrun, hapart⟩ := h.apart.leave hleft hv hvisit
    have hsettled : (s.base.withQueues settled).act produces a =
        some ((s.base.returned x r).withQueues
          (Function.update settled v.place (s.base.queues v.place))) := by
      rw [← CvState.returned_withQueues]
      exact CvState.act_eq htarget hx ((CvState.visit_withQueues x).trans hv) hrun
    have hn : (s.base.withQueues settled).Noticed a := by
      have := h.noticed a x hx hinside
      cases a <;> exact this
    refine ⟨_, ⟨?_, h.inv.step hQ hn hsettled, ?_⟩, .inr hsettled⟩
    · rwa [CvState.returned_queues]
    · intro b y hy hinside'
      have hyx : y ≠ x := by
        rintro rfl
        simp [Inside] at hinside'
      replace hinside' := (inside_update hyx).mp hinside'
      refine CvState.noticed_returned (CvState.targeted_withQueues.mp htarget) hv hy hyx ?_
        (h.noticed b y hy hinside')
      intro w hw hwrites hplace
      have := h.apart.eq_of_writes hinside' hw hinside hv hplace.symm hyx.symm
      simp [hwrites] at this

end Inv

end FineState

/-! ## Nobody sleeps through work -/

/-- What a CPU writes to an empty queue is only a burst that it puts back. -/
theorem CvState.quiet_or_requeueing {s : CvState p} {c : Fin p.N}
    {v : Visit (Fin p.queuesSize) Queue Pc} (hv : s.visit (.cpu c) = some v) :
    (∀ q : Queue, q.head = none → v.access.Quiet q) ∨ (s.pc c).isRequeueing = true := by
  by_cases hwrites : v.writes = false
  · exact .inl fun q _ => v.quiet hwrites q
  simp only [visit] at hv
  cases hc : s.pc c <;> simp only [hc, Pc.visit, reduceCtorEq] at hv
  case requeueing => exact .inr rfl
  case top | sizeTest | markerTest =>
    cases hv
    exact absurd rfl hwrites
  case scanned pid =>
    cases hv
    exact .inl fun q hq => Access.quiet_map (Queue.quiet_dequeueAtSteps pid hq)
  case take =>
    cases halg : p.alg with
    | sjf =>
      simp only [halg] at hv
      cases hv
      exact absurd rfl hwrites
    | fcfs | rr =>
      simp only [halg] at hv
      cases hv
      exact .inl fun q hq => Access.quiet_map (Queue.quiet_dequeueSteps hq)

namespace CvWorkload

variable {w : CvWorkload} {s : FineState w.toSchedProps} {as : List (CvAction w.toSchedProps)}
  {settled : Fin w.queuesSize → Queue}

def fineInit (w : CvWorkload) (s : FineState w.toSchedProps) : Prop :=
  w.init s.base ∧ ∀ x, s.left x = none

abbrev fineAct (w : CvWorkload) : FineState w.toSchedProps → CvAction w.toSchedProps →
    Option (FineState w.toSchedProps) := FineState.act w.produces

/-- When the producer has returned, a CPU that waits without a signal waits for an empty queue. -/
def NoWorkMissed (w : CvWorkload) (s : FineState w.toSchedProps) : Prop :=
  w.Returned s.base → ∀ c, s.base.pc c = .waiting false → (s.base.queues (w.queue c)).items = []

theorem fineInv_init (h : w.fineInit s) : s.Inv s.base.queues where
  apart := by
    obtain ⟨base, left⟩ := s
    obtain rfl : left = fun _ => none := funext h.2
    exact Apart.start _ _
  inv := inv_init h.1
  noticed _ x _ hx := absurd (h.2 x) hx

/-- The settled queue is empty then, and nobody is about to change that. -/
theorem noWorkMissed_of_inv (h : s.Inv settled)
    (hbarren : w.produces = false → (s.base.withQueues settled).Barren) : w.NoWorkMissed s := by
  intro hreturned c hc
  have hsize : (settled (w.queue c)).size = 0 := size_of_waiting h.inv hbarren hreturned hc
  have hhead : (settled (w.queue c)).head = none := (h.inv.queues _).head_eq_none hsize
  have hnow : s.base.queues (w.queue c) = settled (w.queue c) := by
    by_cases hreaders : ∀ x, s.Inside x → ∀ v ∈ s.base.visit x, v.place = w.queue c →
        v.writes = false
    · exact h.apart.settled _ hreaders
    push Not at hreaders
    obtain ⟨x, hx, v, hv, hplace, -⟩ := hreaders
    cases x with
    | main =>
      have hmain : s.base.main = .outside := hreturned.elim (fun hw => (hbarren hw).main) And.left
      have := CvState.visit_main_eq_none (s := s.base) (by simp [hmain])
      simp [this] at hv
    | cpu d =>
      have hqueue : w.queue d = w.queue c := (CvState.visit_cpu hv).symm.trans hplace
      rcases CvState.quiet_or_requeueing hv with hempty | hrequeueing
      · obtain ⟨access, hleft⟩ := Option.ne_none_iff_exists'.mp hx
        have hquiet := (h.apart.visit_eq hleft hv).2
        rw [hplace] at hquiet
        exact (hquiet (hempty _ hhead)).1
      · -- nobody was asleep when the burst began to be put back
        have hawake : s.base.Awake (w.queue d) := by
          refine h.noticed (.cpu d 0) _ rfl hx hrequeueing ?_
          rcases hreturned with hw | ⟨-, -, hmarked⟩
          · have hnot : (s.base.pc d).isRequeueing = false := (hbarren hw).isRequeueing
            simp [hrequeueing] at hnot
          · rw [hmarked]
            exact (w.queue d).isLt
        have := hawake c hqueue.symm
        simp [hc, Pc.isAsleep] at this
  rw [hnow, Queue.items, hhead]
  cases (settled (w.queue c)).brk <;> rfl

/-- In the runs in which no access that writes to a queue overlaps with another one to it, and in
which the CPUs of a queue are awake when its marker begins to be enqueued, and when a burst begins
to be put back after that, no CPU sleeps through work. -/
theorem no_work_missed (h : w.fineInit s)
    (hd : System.Meets w.fineAct FineState.Undisturbed s as) :
    System.Always w.fineAct w.NoWorkMissed s as := by
  refine hd.always (I := fun s => ∃ settled, s.Inv settled ∧
    (w.produces = false → (s.base.withQueues settled).Barren)) ?_ ?_ ?_
  · exact ⟨_, fineInv_init h, fun _ => barren_init h.1⟩
  · rintro s a t ⟨settled, hinv, hbarren⟩ hundisturbed hact
    obtain ⟨settled', hinv', hstep⟩ := hinv.step w.Q_pos hundisturbed hact
    refine ⟨settled', hinv', fun hw => ?_⟩
    rcases hstep with hsame | hcoarse
    · exact hsame ▸ hbarren hw
    · rw [hw] at hcoarse
      exact (hbarren hw).step hcoarse
  · rintro s ⟨settled, hinv, hbarren⟩
    exact noWorkMissed_of_inv hinv hbarren

def fineStart (w : CvWorkload) : FineState w.toSchedProps := ⟨w.start, fun _ => none⟩

theorem fineInit_start (w : CvWorkload) : w.fineInit w.fineStart := ⟨w.init_start, fun _ => rfl⟩

/-- The steps of the producer until the marker is in the queue. -/
def marking : List (CvAction idle.toSchedProps) :=
  .lock .mark :: List.replicate 10 .body ++ [.unlock]

/-- The CPU comes after the marker. -/
def idleLate : List (CvAction idle.toSchedProps) :=
  marking ++ List.replicate 5 (.cpu (Fin.last 0) 0)

theorem no_work_missed_idleLate :
    System.Always idle.fineAct idle.NoWorkMissed idle.fineStart idleLate := by
  refine no_work_missed idle.fineInit_start (System.Meets.of_guarded (t := ?_) ?_)
  · exact (System.perform (System.guarded idle.fineAct FineState.Undisturbed) idleLate
      idle.fineStart).get (by decide +kernel)
  · exact (Option.some_get _).symm

/-- The CPU finds its queue empty and waits, access by access. -/
def fineIdleWait : List (CvAction idle.toSchedProps) := List.replicate 7 (.cpu (Fin.last 0) 0)

/-- The CPU waits before the marker comes, without a signal. -/
theorem work_missed_idleWait :
    idle.fineInit idle.fineStart ∧ ¬ System.Always idle.fineAct idle.NoWorkMissed idle.fineStart
      (fineIdleWait ++ marking) := by
  refine ⟨idle.fineInit_start, fun h => ?_⟩
  let t : FineState idle.toSchedProps :=
    (System.perform idle.fineAct (fineIdleWait ++ marking) idle.fineStart).get (by decide +kernel)
  have hmissed := h.of_perform (t := t) (Option.some_get _).symm
  have hreturned : idle.Returned t.base := .inr ⟨rfl, by decide +kernel, by decide +kernel⟩
  exact absurd (hmissed hreturned (Fin.last 0) (by decide +kernel)) (by decide +kernel)

end CvWorkload

end Cs342.Scheduler
