import Cs342.Scheduler.Completion
import Cs342.Scheduler.Mutex

/-!
# What the mutexes of the ready queues are for (sched.c)

A ready queue changes only under its mutex and at the hands of the thread that owns it.
The owner holds no other mutex and waits for nobody: its next one or two steps give the
mutex back, whatever the others do.
-/

namespace Cs342.Scheduler

open Library

variable {p : SchedProps}

/-- Who takes the step. -/
def LockAction.thread : LockAction p → Thread p
  | .mainLock _ | .mainBody | .mainUnlock => .main
  | .cpu c _ | .cpuLock c | .cpuBody c _ | .cpuUnlock c | .destroy c => .cpu c

namespace State

variable {s t : State p} {a : Action p} {i : Fin p.queuesSize} {c : Fin p.N}

theorem MainEffect.queues_eq (h : MainEffect s i a t) {k : Fin p.queuesSize} (hk : k ≠ i) :
    t.queues k = s.queues k := by
  cases h <;> simp [setQueue, hk]

theorem CpuEffect.queues_eq (h : CpuEffect s c t)
    (hk : i ≠ p.queue c ∨ s.locks c = false) : t.queues i = s.queues i := by
  cases h with
  | poll | exit | finish => rfl
  | take polling =>
    have hne : i ≠ p.queue c := hk.resolve_right (by simp [locks, polling])
    simp [setQueue, setCpu, hne]
  | requeue running slice =>
    have hne : i ≠ p.queue c := hk.resolve_right (by simp [locks, running, slice])
    simp [setQueue, setCpu, hne]

end State

namespace Locked

variable {s t : Locked p} {a : LockAction p} {i k : Fin p.queuesSize} {thread : Thread p}

/-- A step that changes a ready queue is one of the thread that owns its mutex. -/
theorem Inv.owner_of_changed (h : s.Inv) (hact : s.act a = some t)
    (hne : t.base.queues i ≠ s.base.queues i) : s.owner i = some a.thread := by
  cases act_effect hact with
  | mainLock | mainUnlock | cpuLock | cpuUnlock | destroy => exact absurd rfl hne
  | @mainBody a k base hmain hbase =>
    have hik : i = k := by
      by_contra hik
      exact hne ((State.main_effect (h.target k a hmain) hbase).queues_eq hik)
    exact (h.main i).mpr (by simp [hmain, hik])
  | cpu hout hlocks hbase =>
    exact absurd ((State.cpu_effect hbase).queues_eq (.inr hlocks)) hne
  | @cpuBody c now base hin hbase =>
    have hic : i = p.queue c := by
      by_contra hic
      exact hne ((State.cpu_effect hbase).queues_eq (.inl hic))
    exact (h.cpu c i).mpr ⟨hic.symm, .inl hin⟩

/-- Nobody holds two of the mutexes. -/
theorem Inv.owner_unique (h : s.Inv) (hi : s.owner i = some thread)
    (hk : s.owner k = some thread) : k = i := by
  cases thread with
  | main =>
    have hi := (h.main i).mp hi
    have hk := (h.main k).mp hk
    cases hmain : s.main <;> simp_all
  | cpu c => exact ((h.cpu c k).mp hk).1.symm.trans ((h.cpu c i).mp hi).1

/-- A mutex goes to another thread only through the hands of its owner. -/
theorem Inv.owner_kept (h : s.Inv) (hact : s.act a = some t) (hi : s.owner i = some thread)
    (hother : a.thread ≠ thread) : t.owner i = some thread := by
  have hne {k : Fin p.queuesSize} {o : Option (Thread p)} (hk : s.owner k ≠ some thread) :
      Function.update s.owner k o i = some thread := by
    have hik : i ≠ k := by
      rintro rfl
      exact hk hi
    rwa [Function.update_of_ne hik]
  cases act_effect hact with
  | mainBody | cpu | cpuBody | destroy => exact hi
  | mainLock htarget hfree hmain => exact hne (by simp [hfree])
  | cpuLock hphase hlocks hfree => exact hne (by simp [hfree])
  | @mainUnlock k hmain =>
    have howner := (h.main k).mpr (by simp [hmain])
    exact hne fun hk => hother (Option.some.inj (howner.symm.trans hk))
  | @cpuUnlock c hphase =>
    have howner := (h.cpu c (p.queue c)).mpr ⟨rfl, .inr hphase⟩
    exact hne fun hk => hother (Option.some.inj (howner.symm.trans hk))

end Locked

namespace Workload

variable {w : Workload} {s : State w.toSchedProps}

/-- The body of a section that has been entered can be executed. -/
theorem act_isSome_of_target (h : w.system.Reachable s) {a : Action w.toSchedProps}
    {i : Fin w.queuesSize} (ha : s.target a = some i) : (s.act a).isSome := by
  cases a with
  | produce arrivalTime seen unset =>
    refine w.produce_isSome h ?_ arrivalTime seen unset
    rintro hnil
    simp [State.target, hnil] at ha
  | mark =>
    simp only [State.target] at ha
    split_ifs at ha with htodo hmarked
    exact mark_isSome h htodo hmarked
  | cpu c now => simp [State.target] at ha

/-- The steps that the owner of a mutex has still to take. -/
theorem releases {s : Locked w.toSchedProps} (h : (Locked.tested w).Reachable s)
    {i : Fin w.queuesSize} {thread : Thread w.toSchedProps} (howner : s.owner i = some thread) :
    ∃ as t, as.length ≤ 2 ∧ (∀ a ∈ as, a.thread = thread) ∧
      System.perform (System.guarded Locked.act Locked.TestedOutside) as s = some t ∧
      t.owner = Function.update s.owner i none := by
  have hinv := Locked.inv h
  have hbase := Locked.base_reachable h.of_guarded
  cases thread with
  | main =>
    have hin := (hinv.main i).mp howner
    cases hmain : s.main with
    | outside => simp [hmain] at hin
    | leaving k =>
      obtain rfl : k = i := by simpa [hmain] using hin
      refine ⟨[.mainUnlock], { s with owner := Function.update s.owner k none, main := .outside },
        by simp, by simp [LockAction.thread], ?_, rfl⟩
      simp [System.perform, System.guarded, Locked.TestedOutside, Locked.act, hmain]
    | entered k a =>
      obtain rfl : k = i := by simpa [hmain] using hin
      obtain ⟨base, hact⟩ :=
        Option.isSome_iff_exists.mp (act_isSome_of_target hbase (hinv.target k a hmain))
      refine ⟨[.mainBody, .mainUnlock], { s with
        base := base, owner := Function.update s.owner k none, main := .outside },
        by simp, by simp [LockAction.thread], ?_, rfl⟩
      simp [System.perform, System.guarded, Locked.TestedOutside, Locked.act, hmain, hact]
  | cpu c =>
    obtain ⟨rfl, hin⟩ := (hinv.cpu c i).mp howner
    rcases hin with hin | hin
    · have hlocks := hinv.entered c hin
      have hleft : s.base.cpus c ≠ .exited := by
        intro hexit
        simp [State.locks, hexit] at hlocks
      obtain ⟨base, hact⟩ := Option.isSome_iff_exists.mp (w.cpu_isSome hbase hleft 0)
      have hact : s.base.cpu c 0 = some base := hact
      refine ⟨[.cpuBody c 0, .cpuUnlock c], { s with
        base := base, owner := Function.update s.owner (w.queue c) none
        phase := Function.update s.phase c .outside },
        by simp, by simp [LockAction.thread], ?_, rfl⟩
      simp [System.perform, System.guarded, Locked.TestedOutside, Locked.act, hin, hact]
    · refine ⟨[.cpuUnlock c], { s with
        owner := Function.update s.owner (w.queue c) none
        phase := Function.update s.phase c .outside },
        by simp, by simp [LockAction.thread], ?_, rfl⟩
      simp [System.perform, System.guarded, Locked.TestedOutside, Locked.act, hin]

/-- In a run whose unlocked tests meet their condition, each change of a ready queue is made by
the owner of its mutex. An owner holds no other of the mutexes, keeps it whatever the others
do, and gives it back with at most two steps of its own. -/
theorem queues_exclusive (w : Workload) {s : Locked w.toSchedProps}
    (h : (Locked.tested w).Reachable s) :
    (∀ a t i, s.act a = some t → t.base.queues i ≠ s.base.queues i →
      s.owner i = some a.thread) ∧
    ∀ i thread, s.owner i = some thread →
      (∀ k, s.owner k = some thread → k = i) ∧
      (∀ a t, s.act a = some t → a.thread ≠ thread → t.owner i = some thread) ∧
      ∃ as t, as.length ≤ 2 ∧ (∀ a ∈ as, a.thread = thread) ∧
        System.perform (System.guarded Locked.act Locked.TestedOutside) as s = some t ∧
        t.owner = Function.update s.owner i none := by
  have hinv := Locked.inv h
  refine ⟨fun a t i hact hne => hinv.owner_of_changed hact hne, fun i thread howner => ?_⟩
  exact ⟨fun k hk => hinv.owner_unique howner hk,
    fun a t hact hother => hinv.owner_kept hact howner hother, releases h howner⟩

end Workload

namespace Locked

/-- The producer is inside the section of its marker. -/
def idleInside : Locked idle.toSchedProps :=
  (System.perform (System.guarded act TestedOutside) [.mainLock .mark] (start idle)).get
    (by decide +kernel)

theorem queues_exclusive_idleInside :
    (∀ a t i, idleInside.act a = some t → t.base.queues i ≠ idleInside.base.queues i →
      idleInside.owner i = some a.thread) ∧
    ∀ i thread, idleInside.owner i = some thread →
      (∀ k, idleInside.owner k = some thread → k = i) ∧
      (∀ a t, idleInside.act a = some t → a.thread ≠ thread → t.owner i = some thread) ∧
      ∃ as t, as.length ≤ 2 ∧ (∀ a ∈ as, a.thread = thread) ∧
        System.perform (System.guarded act TestedOutside) as idleInside = some t ∧
        t.owner = Function.update idleInside.owner i none :=
  Workload.queues_exclusive idle
    ⟨_, init_start idle, System.steps_of_perform (Option.some_get _).symm⟩

end Locked

end Cs342.Scheduler
