import Cs342.Library.Scan
import Cs342.Scheduler.Cpu

/-!
# The least loaded queue

Both sources choose a queue under `QS_LM` by a scan that keeps the load of the best queue
so far in an `int`. `parse_and_enqueue` compares the loads with it, so it finds the first
least loaded queue unless a load does not fit. `sched_random` compares the sizes with
it, and finds that queue only where its moves lead there and no later size is below its load.

A queue may change while the scan reads it; here the scan sees the queues as they are.
-/

namespace Cs342.Scheduler

open Library

namespace SchedProps

/-- What the scan of a source compares with the load it keeps. -/
def comparedField (source : ScheduleSource) (queue : Queue) : ℤ :=
  match source with
  | .file => queue.queueLoad
  | .random => queue.size

/-- The choice of a source under `QS_LM`. -/
def leastLoadedOf (p : SchedProps) (source : ScheduleSource) (h : 0 < p.queuesSize)
    (queues : Fin p.queuesSize → Queue) : Fin p.queuesSize :=
  leastLoaded { p with source := source } ⟨0, h⟩
    { first := (queues ⟨0, h⟩).queueLoad
      compared := fun i => comparedField source (queues i)
      kept := fun i => (queues i).queueLoad }

variable {p : SchedProps} {queues : Fin p.queuesSize → Queue} {b m r : Fin p.queuesSize}

/-- The load as the scan keeps it. -/
def keptLoad (queues : Fin p.queuesSize → Queue) (i : Fin p.queuesSize) : ℤ :=
  toInt (queues i).queueLoad

/-- Either source ends where its moves from queue 0 end. -/
theorem leastLoadedOf_eq_iff (source : ScheduleSource) (h : 0 < p.queuesSize) :
    p.leastLoadedOf source h queues = r ↔
      Relation.ReflTransGen (Moves (keptLoad queues) fun i => comparedField source (queues i))
        ⟨0, h⟩ r ∧ Settled (keptLoad queues) (fun i => comparedField source (queues i)) r := by
  have hzero : (⟨0, h⟩ : Fin p.queuesSize).val = 0 := rfl
  rw [← scan_drop_eq_iff hzero]
  cases source with
  | file =>
    rw [← scan_finRange hzero]
    rfl
  | random => rfl

/-! ## parse_and_enqueue -/

/-- Up to the least loaded queue the loads that are kept are above its load, if that of queue 0
is. -/
theorem load_lt_kept (hm : FirstMin (fun i => (queues i).queueLoad) m) {zero : Fin p.queuesSize}
    (hreach : Relation.ReflTransGen
      (Moves (keptLoad queues) fun i => (queues i).queueLoad) zero b) (hb : b < m) :
    (queues m).queueLoad < keptLoad queues b ↔ (queues m).queueLoad < keptLoad queues zero := by
  induction hreach with
  | refl => rfl
  | @tail b c hreach hmove ih =>
    have hlt : (queues m).queueLoad < (queues c).queueLoad := hm.2 c hb
    have hkept : (queues c).queueLoad < keptLoad queues b := hmove.2.1
    have hint : keptLoad queues b < 2 ^ 31 := (isInt_toInt _).2
    refine iff_of_true ?_ ((ih (hmove.1.trans hb)).mp (hlt.trans hkept))
    -- the load of `c` is below an `int`: it is one, or lies below all of them
    by_cases hc : -2 ^ 31 ≤ (queues c).queueLoad
    · rwa [keptLoad, IsInt.toInt_eq ⟨hc, hkept.trans hint⟩]
    · exact (hlt.trans (not_le.mp hc)).trans_le (isInt_toInt _).1

/-- `parse_and_enqueue` chooses the first least loaded queue exactly when that is queue 0 or its
load is below that of queue 0 as an `int`, and its own load as an `int` is above none of the
loads behind it. -/
theorem file_least_loaded_iff (h : 0 < p.queuesSize)
    (hm : FirstMin (fun i => (queues i).queueLoad) m) :
    p.leastLoadedOf .file h queues = m ↔
      (m.val = 0 ∨ (queues m).queueLoad < toInt (queues ⟨0, h⟩).queueLoad) ∧
        ∀ i, m < i → toInt (queues m).queueLoad ≤ (queues i).queueLoad := by
  rw [leastLoadedOf_eq_iff]
  refine and_congr_left fun _ => ?_
  constructor
  · intro hreach
    rcases hreach.cases_tail with heq | ⟨b, hb, hmove⟩
    · exact .inl (congrArg Fin.val heq)
    · exact .inr ((load_lt_kept hm hb hmove.1).mp hmove.2.1)
  · rintro (hzero | hlt)
    · obtain rfl : m = ⟨0, h⟩ := Fin.ext hzero
      exact .refl
    · exact reaches_of_lt (Fin.le_def.mpr (Nat.zero_le _)) fun b hb hbm =>
        (load_lt_kept hm hb hbm).mpr hlt

/-- The options of a run with this many queues, one for each CPU. -/
def balanced (N : ℕ) : SchedProps where
  N := N
  Q := 0
  sap := .multi
  qs := .lm
  alg := .fcfs
  source := .file

/-- Two queues of two bursts each, with these loads. -/
def twoLoads (load₀ load₁ : ℤ) : Fin (balanced 2).queuesSize → Queue :=
  fun i => { Queue.empty (if i.val = 0 then load₀ else load₁) with size := 2 }

theorem firstMin_twoLoads {load₀ load₁ : ℤ} (h : load₁ < load₀) :
    FirstMin (fun i => (twoLoads load₀ load₁ i).queueLoad) (Fin.last 1) := by
  constructor
  · intro i
    by_cases hi : i.val = 0 <;> simp [twoLoads, Queue.empty, hi, h.le]
  · intro i hi
    have hzero : i.val = 0 := by
      have : i.val < 1 := hi
      omega
    simpa [twoLoads, Queue.empty, hzero] using h

theorem file_least_loaded_iff_twoLoads :
    (balanced 2).leastLoadedOf .file (by decide) (twoLoads 7 5) = Fin.last 1 ↔
      ((Fin.last 1).val = 0 ∨ 5 < toInt 7) ∧
        ∀ i : Fin 2, Fin.last 1 < i → toInt 5 ≤ (twoLoads 7 5 i).queueLoad :=
  file_least_loaded_iff (p := balanced 2) (by decide) (firstMin_twoLoads (by decide))

/-- With the load 2147483648 in queue 0, which an `int` holds as -2147483648, queue 0 is chosen
although the load of queue 1 is 5. -/
theorem file_least_loaded_narrowed :
    ((balanced 2).leastLoadedOf .file (by decide) (twoLoads 2147483648 5)).val = 0 ∧
      ¬ FirstMin (fun i => (twoLoads 2147483648 5 i).queueLoad)
        ((balanced 2).leastLoadedOf .file (by decide) (twoLoads 2147483648 5)) := by
  have hzero : ((balanced 2).leastLoadedOf .file (by decide) (twoLoads 2147483648 5)).val = 0 := by
    decide +kernel
  refine ⟨hzero, fun hmin => ?_⟩
  have heq := congrArg Fin.val (hmin.unique (firstMin_twoLoads (by decide)))
  rw [hzero] at heq
  exact absurd heq (by decide)

/-! ## sched_random -/

/-- The choice of `parse_and_enqueue` is the first least loaded queue if all loads fit, and
`sched_random` makes the same one exactly when its moves lead to that queue and no later size is
below its load. They do lead there if the size of the queue does not exceed its load, as
where no burst is shorter than 1. -/
theorem random_least_loaded_iff (h : 0 < p.queuesSize) (hint : ∀ i, IsInt (queues i).queueLoad)
    (hm : FirstMin (fun i => (queues i).queueLoad) m) :
    p.leastLoadedOf .file h queues = m ∧
    (p.leastLoadedOf .random h queues = p.leastLoadedOf .file h queues ↔
      Relation.ReflTransGen
        (Moves (fun i => (queues i).queueLoad) fun i => (queues i).size) ⟨0, h⟩ m ∧
      ∀ i, m < i → (queues m).queueLoad ≤ (queues i).size) ∧
    ((queues m).size ≤ (queues m).queueLoad → Relation.ReflTransGen
      (Moves (fun i => (queues i).queueLoad) fun i => (queues i).size) ⟨0, h⟩ m) := by
  have hkept : keptLoad queues = fun i => (queues i).queueLoad :=
    funext fun i => (hint i).toInt_eq
  have hfile : p.leastLoadedOf .file h queues = m := by
    rw [file_least_loaded_iff h hm]
    simp only [(hint _).toInt_eq]
    refine ⟨?_, fun i _ => hm.1 i⟩
    rcases Nat.eq_zero_or_pos m.val with hzero | hpos
    · exact .inl hzero
    · exact .inr (hm.2 _ hpos)
  refine ⟨hfile, ?_, fun hsize => ?_⟩
  · rw [hfile, leastLoadedOf_eq_iff, hkept]
    rfl
  · exact reaches_of_lt (Fin.le_def.mpr (Nat.zero_le _)) fun b _ hbm => hsize.trans_lt (hm.2 b hbm)

theorem isInt_twoLoads {load₀ load₁ : ℤ} (h₀ : IsInt load₀) (h₁ : IsInt load₁)
    (i : Fin (balanced 2).queuesSize) : IsInt (twoLoads load₀ load₁ i).queueLoad := by
  by_cases hi : i.val = 0 <;> simpa [twoLoads, Queue.empty, hi]

theorem random_least_loaded_iff_twoLoads :
    (balanced 2).leastLoadedOf .file (by decide) (twoLoads 7 5) = Fin.last 1 ∧
    ((balanced 2).leastLoadedOf .random (by decide) (twoLoads 7 5) =
        (balanced 2).leastLoadedOf .file (by decide) (twoLoads 7 5) ↔
      Relation.ReflTransGen (Moves (fun i => (twoLoads 7 5 i).queueLoad)
        fun i => (twoLoads 7 5 i).size) ⟨0, by decide⟩ (Fin.last 1) ∧
      ∀ i : Fin 2, Fin.last 1 < i → 5 ≤ (twoLoads 7 5 i).size) ∧
    ((2 : ℤ) ≤ 5 → Relation.ReflTransGen (Moves (fun i => (twoLoads 7 5 i).queueLoad)
      fun i => (twoLoads 7 5 i).size) ⟨0, by decide⟩ (Fin.last 1)) :=
  random_least_loaded_iff (p := balanced 2) (by decide)
    (isInt_twoLoads (by decide) (by decide)) (firstMin_twoLoads (by decide))

/-- With the loads 5 and 10 and two bursts in each queue, `sched_random` compares the size 2 of
queue 1 with the load 5 of queue 0, and chooses queue 1. -/
theorem random_least_loaded_by_size :
    (∀ i, IsInt (twoLoads 5 10 i).queueLoad) ∧
      ((balanced 2).leastLoadedOf .file (by decide) (twoLoads 5 10)).val = 0 ∧
      ((balanced 2).leastLoadedOf .random (by decide) (twoLoads 5 10)).val = 1 :=
  ⟨isInt_twoLoads (by decide) (by decide), by decide +kernel, by decide +kernel⟩

end SchedProps

end Cs342.Scheduler
