import Cs342.Scheduler.Conservation

/-!
# The mutexes of the ready queues (sched.c)

Every critical section of the producer and of the CPUs in its three parts: lock, body,
unlock. The body is the step of `State.act`, so the queues go through the states of
the coarse system. The test at the top of a CPU's loop takes no lock: it may see the
marker while the producer is still inside the section that has put it there, and the
CPU then destroys a mutex that is locked. `finishedQueue` has a mutex of its own, which
is left out.
-/

namespace Cs342.Scheduler

open Library

variable {p : SchedProps}

namespace State

variable {s t : State p}

/-- The queue a section of the producer works on. -/
def target (s : State p) : Action p → Option (Fin p.queuesSize)
  | .produce _ seen _ =>
    match s.todo with
    | [] => none
    | _ :: _ => some (p.select s.queueZero s.rrQueueIdx seen)
  | .mark =>
    if s.todo = [] then if h : s.marked < p.queuesSize then some ⟨s.marked, h⟩ else none
    else none
  | .cpu _ _ => none

/-- Whether the next step of the CPU is made under the mutex of its queue. -/
def locks (s : State p) (c : Fin p.N) : Bool :=
  match s.cpus c with
  | .polling => true
  | .running burst => p.alg = .rr ∧ burst.remainingTime > p.Q
  | _ => false

end State

inductive Thread (p : SchedProps) where
  | main
  | cpu (c : Fin p.N)
  deriving DecidableEq

/-- Outside of any section, or in the section of `act` on queue `i` before or after its body. -/
inductive MainPhase (p : SchedProps) where
  | outside
  | entered (i : Fin p.queuesSize) (act : Action p)
  | leaving (i : Fin p.queuesSize)

inductive CpuPhase where
  | outside
  | entered
  | leaving
  | gone
  deriving DecidableEq

structure Locked (p : SchedProps) where
  base : State p
  owner : Fin p.queuesSize → Option (Thread p)
  destroyed : Fin p.queuesSize → Bool
  main : MainPhase p
  phase : Fin p.N → CpuPhase

inductive LockAction (p : SchedProps) where
  | mainLock (a : Action p)
  | mainBody
  | mainUnlock
  | cpu (c : Fin p.N) (now : ℤ)
  | cpuLock (c : Fin p.N)
  | cpuBody (c : Fin p.N) (now : ℤ)
  | cpuUnlock (c : Fin p.N)
  | destroy (c : Fin p.N)

namespace Locked

/-- `pthread_mutex_lock` waits until the mutex has no owner. -/
def act (s : Locked p) : LockAction p → Option (Locked p)
  | .mainLock a =>
    match s.main, s.base.target a with
    | .outside, some i =>
      if s.owner i = none then
        some { s with owner := Function.update s.owner i (some .main), main := .entered i a }
      else none
    | _, _ => none
  | .mainBody =>
    match s.main with
    | .entered i a => (s.base.act a).map fun base => { s with base := base, main := .leaving i }
    | _ => none
  | .mainUnlock =>
    match s.main with
    | .leaving i => some { s with owner := Function.update s.owner i none, main := .outside }
    | _ => none
  | .cpu c now =>
    if s.phase c = .outside ∧ s.base.locks c = false then
      (s.base.cpu c now).map fun base => { s with base := base }
    else none
  | .cpuLock c =>
    if s.phase c = .outside ∧ s.base.locks c = true ∧ s.owner (p.queue c) = none then
      some { s with
        owner := Function.update s.owner (p.queue c) (some (.cpu c))
        phase := Function.update s.phase c .entered }
    else none
  | .cpuBody c now =>
    if s.phase c = .entered then
      (s.base.cpu c now).map fun base =>
        { s with base := base, phase := Function.update s.phase c .leaving }
    else none
  | .cpuUnlock c =>
    if s.phase c = .leaving then
      some { s with
        owner := Function.update s.owner (p.queue c) none
        phase := Function.update s.phase c .outside }
    else none
  | .destroy c =>
    if p.sap = .multi ∧ s.phase c = .outside ∧ s.base.cpus c = .exited then
      some { s with
        destroyed := Function.update s.destroyed (p.queue c) true
        phase := Function.update s.phase c .gone }
    else none

/-- The mutex an action locks or unlocks. -/
def touches (s : Locked p) : LockAction p → Option (Fin p.queuesSize)
  | .mainLock a => s.base.target a
  | .mainUnlock =>
    match s.main with
    | .leaving i => some i
    | _ => none
  | .cpuLock c | .cpuUnlock c => some (p.queue c)
  | _ => none

/-- A CPU that sees the marker without the lock does not see it while the producer has the
lock. -/
def TestedOutside (s : Locked p) : LockAction p → Prop
  | .cpu c _ =>
    s.base.cpus c = .top → (s.base.queues (p.queue c)).atMarker = some true →
      s.owner (p.queue c) ≠ some .main
  | _ => True

instance (s : Locked p) : DecidablePred s.TestedOutside
  | .cpu _ _ => inferInstanceAs (Decidable (_ → _ → _ ≠ _))
  | .mainLock _ | .mainBody | .mainUnlock | .cpuLock _ | .cpuBody _ _ | .cpuUnlock _
  | .destroy _ => .isTrue trivial

def init (w : Workload) (s : Locked w.toSchedProps) : Prop :=
  w.init s.base ∧ (∀ i, s.owner i = none) ∧ (∀ i, s.destroyed i = false) ∧ s.main = .outside ∧
    ∀ c, s.phase c = .outside

def system (w : Workload) : System (Locked w.toSchedProps) := System.ofAct (init w) act

/-- The runs in which the unlocked tests meet the condition. -/
def tested (w : Workload) : System (Locked w.toSchedProps) :=
  System.ofAct (init w) (System.guarded act TestedOutside)

end Locked

/-! ## Who is inside which section -/

namespace State

variable {s t : State p} {a : Action p} {i : Fin p.queuesSize} {c : Fin p.N}

/-- The producer does not come back to a queue that has its marker. -/
theorem Inv.le_target (h : s.Inv) (ha : s.target a = some i) : s.marked ≤ i.val := by
  cases a with
  | produce arrivalTime seen unset =>
    have hzero : s.marked = 0 := by
      by_contra hne
      simp [target, h.marked (by omega)] at ha
    omega
  | mark =>
    simp only [target] at ha
    split_ifs at ha
    obtain rfl := Option.some.inj ha
    exact le_rfl
  | cpu c now => simp [target] at ha

/-- A section of the producer on queue `i`. -/
inductive MainEffect (s : State p) (i : Fin p.queuesSize) : Action p → State p → Prop
  | produce {arrivalTime unset : ℤ} {seen : Seen p.queuesSize} {j : Job} {todo : List Job}
      {rr : Fin p.queuesSize} {b : BurstItem} {q : Queue} (todo_eq : s.todo = j :: todo)
      (job : b.job = j) (enq : (s.queues i).enqueue b = some q) :
      MainEffect s i (.produce arrivalTime seen unset)
        { s.setQueue i q with todo := todo, rrQueueIdx := rr }
  | mark {q : Queue} (todo_eq : s.todo = []) (next : i.val = s.marked)
      (enq : (s.queues i).enqueue endMarker = some q) :
      MainEffect s i .mark { s.setQueue i q with marked := s.marked + 1 }

theorem main_effect (ha : s.target a = some i) (hact : s.act a = some t) : MainEffect s i a t := by
  cases a with
  | produce arrivalTime seen unset =>
    obtain ⟨j, todo, q, htodo, hq, rfl⟩ := produce_cases hact
    simp only [target, htodo, Option.some.injEq] at ha
    subst ha
    exact .produce htodo (p.mkBurst_job j _ _ _) hq
  | mark =>
    obtain ⟨k, q, htodo, hk, hq, rfl⟩ := mark_cases hact
    simp only [target] at ha
    split_ifs at ha with hm
    obtain rfl : k = i := Fin.ext (hk.trans (congrArg Fin.val (Option.some.inj ha)))
    exact .mark htodo hk hq
  | cpu c now => simp [target] at ha

theorem MainEffect.cpus_eq (h : MainEffect s i a t) : t.cpus = s.cpus := by
  cases h <;> rfl

theorem CpuEffect.target_eq (h : CpuEffect s c t) (a : Action p) : t.target a = s.target a := by
  obtain ⟨htodo, hmarked, hrr, -⟩ := h.frame
  cases a <;> simp only [target, queueZero, htodo, hmarked, hrr]

theorem locks_congr (h : t.cpus c = s.cpus c) : t.locks c = s.locks c := by
  simp only [locks, h]

/-- A CPU that leaves its loop has seen the marker, polling or before. -/
theorem CpuEffect.of_exited (h : CpuEffect s c t) (hexit : t.cpus c = .exited) :
    (s.cpus c = .top ∨ s.cpus c = .polling) ∧
      (s.queues (p.queue c)).atMarker = some true := by
  cases h with
  | exit idle hmark => exact ⟨idle, hmark⟩
  | poll | take | requeue | finish => simp [setCpu] at hexit

end State

namespace MainPhase

variable {i k : Fin p.queuesSize} {a : Action p}

/-- The producer has locked the mutex of queue `i`. -/
def Inside (i : Fin p.queuesSize) : MainPhase p → Prop
  | .outside => False
  | .entered k _ => k = i
  | .leaving k => k = i

@[simp] theorem inside_outside : ¬ Inside i (.outside : MainPhase p) := id
@[simp] theorem inside_entered : Inside i (.entered k a) ↔ k = i := .rfl
@[simp] theorem inside_leaving : Inside i (.leaving k : MainPhase p) ↔ k = i := .rfl

end MainPhase

def CpuPhase.Inside (l : CpuPhase) : Prop := l = .entered ∨ l = .leaving

namespace Locked

variable {s t : Locked p} {c : Fin p.N}

inductive ActEffect (s : Locked p) : LockAction p → Locked p → Prop
  | mainLock {a : Action p} {i : Fin p.queuesSize} (target : s.base.target a = some i)
      (free : s.owner i = none) (main : s.main = .outside) :
      ActEffect s (.mainLock a)
        { s with owner := Function.update s.owner i (some .main), main := .entered i a }
  | mainBody {a : Action p} {i : Fin p.queuesSize} {base : State p} (main : s.main = .entered i a)
      (body : s.base.act a = some base) :
      ActEffect s .mainBody { s with base := base, main := .leaving i }
  | mainUnlock {i : Fin p.queuesSize} (main : s.main = .leaving i) :
      ActEffect s .mainUnlock
        { s with owner := Function.update s.owner i none, main := .outside }
  | cpu {c : Fin p.N} {now : ℤ} {base : State p} (phase : s.phase c = .outside)
      (locks : s.base.locks c = false) (step : s.base.cpu c now = some base) :
      ActEffect s (.cpu c now) { s with base := base }
  | cpuLock {c : Fin p.N} (phase : s.phase c = .outside) (locks : s.base.locks c = true)
      (free : s.owner (p.queue c) = none) :
      ActEffect s (.cpuLock c)
        { s with
          owner := Function.update s.owner (p.queue c) (some (.cpu c))
          phase := Function.update s.phase c .entered }
  | cpuBody {c : Fin p.N} {now : ℤ} {base : State p} (phase : s.phase c = .entered)
      (step : s.base.cpu c now = some base) :
      ActEffect s (.cpuBody c now)
        { s with base := base, phase := Function.update s.phase c .leaving }
  | cpuUnlock {c : Fin p.N} (phase : s.phase c = .leaving) :
      ActEffect s (.cpuUnlock c)
        { s with
          owner := Function.update s.owner (p.queue c) none
          phase := Function.update s.phase c .outside }
  | destroy {c : Fin p.N} (multi : p.sap = .multi) (phase : s.phase c = .outside)
      (exited : s.base.cpus c = .exited) :
      ActEffect s (.destroy c)
        { s with
          destroyed := Function.update s.destroyed (p.queue c) true
          phase := Function.update s.phase c .gone }

theorem act_effect {a : LockAction p} (hact : s.act a = some t) : ActEffect s a t := by
  cases a with
  | mainLock a =>
    simp only [act] at hact
    split at hact
    · next i hmain htarget =>
      split_ifs at hact with hfree
      exact Option.some.inj hact ▸ .mainLock htarget hfree hmain
    · simp at hact
  | mainBody =>
    simp only [act] at hact
    split at hact
    · next i a hmain =>
      obtain ⟨base, hbase, rfl⟩ := Option.map_eq_some_iff.mp hact
      exact .mainBody hmain hbase
    · simp at hact
  | mainUnlock =>
    simp only [act] at hact
    split at hact
    · next i hmain => exact Option.some.inj hact ▸ .mainUnlock hmain
    · simp at hact
  | cpu c now =>
    simp only [act] at hact
    split_ifs at hact with hguard
    obtain ⟨base, hbase, rfl⟩ := Option.map_eq_some_iff.mp hact
    exact .cpu hguard.1 hguard.2 hbase
  | cpuLock c =>
    simp only [act] at hact
    split_ifs at hact with hguard
    exact Option.some.inj hact ▸ .cpuLock hguard.1 hguard.2.1 hguard.2.2
  | cpuBody c now =>
    simp only [act] at hact
    split_ifs at hact with hphase
    obtain ⟨base, hbase, rfl⟩ := Option.map_eq_some_iff.mp hact
    exact .cpuBody hphase hbase
  | cpuUnlock c =>
    simp only [act] at hact
    split_ifs at hact with hphase
    exact Option.some.inj hact ▸ .cpuUnlock hphase
  | destroy c =>
    simp only [act] at hact
    split_ifs at hact with hguard
    exact Option.some.inj hact ▸ .destroy hguard.1 hguard.2.1 hguard.2.2

structure Inv (s : Locked p) : Prop where
  base : s.base.Inv
  main : ∀ i, s.owner i = some .main ↔ s.main.Inside i
  cpu : ∀ c i, s.owner i = some (.cpu c) ↔ p.queue c = i ∧ (s.phase c).Inside
  target : ∀ i a, s.main = .entered i a → s.base.target a = some i
  entered : ∀ c, s.phase c = .entered → s.base.locks c = true
  gone : ∀ c, s.phase c = .gone → s.base.cpus c = .exited
  destroyed : ∀ i, s.destroyed i = true → ∃ c, p.queue c = i ∧ s.phase c = .gone
  clear : ∀ c, s.base.cpus c = .exited → ¬ s.main.Inside (p.queue c)

/-- The producer has no business at a queue whose CPU has left. -/
theorem Inv.target_ne (h : s.Inv) (hc : s.base.cpus c = .exited) (a : Action p) :
    s.base.target a ≠ some (p.queue c) := by
  intro ha
  have hle := h.base.le_target ha
  have hlt := h.base.exited c hc
  omega

/-- Where the producer locks or unlocks, no CPU is inside. -/
theorem Inv.cpu_update (h : s.Inv) {i : Fin p.queuesSize} {owner : Option (Thread p)}
    (hold : ∀ c, s.owner i ≠ some (.cpu c)) (hnew : ∀ c, owner ≠ some (.cpu c)) (c : Fin p.N) :
    ∀ k, Function.update s.owner i owner k = some (.cpu c) ↔
      p.queue c = k ∧ (s.phase c).Inside := by
  apply (Function.forall_update_iff s.owner fun k o =>
    o = some (.cpu c) ↔ p.queue c = k ∧ (s.phase c).Inside).mpr
  refine ⟨iff_of_false (hnew c) ?_, fun k _ => h.cpu c k⟩
  exact (h.cpu c i).not.mp (hold c)

theorem Inv.mainLock (h : s.Inv) {a : Action p} {i : Fin p.queuesSize}
    (htarget : s.base.target a = some i) (hfree : s.owner i = none) (hmain : s.main = .outside) :
    Inv { s with owner := Function.update s.owner i (some .main), main := .entered i a } :=
  { h with
    main := fun k => by
      rcases eq_or_ne k i with rfl | hk
      · simp
      · simpa [hk, hk.symm, hmain] using h.main k
    cpu := h.cpu_update (by simp [hfree]) (by simp)
    target := fun k b hk => by
      obtain ⟨rfl, rfl⟩ := MainPhase.entered.inj hk
      exact htarget
    clear := fun d hd hin => by
      obtain rfl : i = p.queue d := hin
      exact h.target_ne hd a htarget }

theorem Inv.mainBody (hN : 0 < p.N) (h : s.Inv) {a : Action p} {i : Fin p.queuesSize}
    {base : State p} (hmain : s.main = .entered i a) (hbase : s.base.act a = some base) :
    Inv { s with base := base, main := .leaving i } := by
  have hcpus := (State.main_effect (h.target i a hmain) hbase).cpus_eq
  exact { h with
    base := h.base.step hN (State.act_cases hbase)
    main := fun k => by simpa [hmain] using h.main k
    target := fun k b hk => by simp at hk
    entered := fun c hc => (State.locks_congr (congrFun hcpus c)).trans (h.entered c hc)
    gone := fun c hc => (congrFun hcpus c).trans (h.gone c hc)
    clear := fun c hc => by simpa [hmain] using h.clear c ((congrFun hcpus c).symm.trans hc) }

theorem Inv.mainUnlock (h : s.Inv) {i : Fin p.queuesSize} (hmain : s.main = .leaving i) :
    Inv { s with owner := Function.update s.owner i none, main := .outside } := by
  have howner : s.owner i = some .main := (h.main i).mpr (by simp [hmain])
  exact { h with
    main := fun k => by
      rcases eq_or_ne k i with rfl | hk
      · simp
      · simpa [hk, hk.symm, hmain] using h.main k
    cpu := h.cpu_update (by simp [howner]) (by simp)
    target := fun k b hk => by simp at hk
    clear := fun d hd => by simp }

/-- The step of a CPU that is not about to make it under the lock. -/
theorem Inv.setBase (hN : 0 < p.N) (h : s.Inv) {base : State p}
    (st : State.CpuEffect s.base c base) (hcase : Effect s.base base)
    (hclear : base.cpus c = .exited → ¬ s.main.Inside (p.queue c))
    (hentered : s.phase c ≠ .entered) (hgone : s.phase c ≠ .gone) :
    Inv { s with base := base } := by
  obtain ⟨-, -, -, hframe⟩ := st.frame
  have hne {d : Fin p.N} {l : CpuPhase} (hl : s.phase c ≠ l) (hd : s.phase d = l) : d ≠ c := by
    rintro rfl
    exact hl hd
  exact { h with
    base := h.base.step hN hcase
    target := fun k a hk => (st.target_eq a).trans (h.target k a hk)
    entered := fun d hd =>
      (State.locks_congr (hframe d (hne hentered hd))).trans (h.entered d hd)
    gone := fun d hd => (hframe d (hne hgone hd)).trans (h.gone d hd)
    clear := fun d hd => by
      rcases eq_or_ne d c with rfl | hdc
      · exact hclear hd
      · exact h.clear d ((hframe d hdc).symm.trans hd) }

/-- A CPU moves from one phase to another; `owner` is told who has the mutex of its queue. -/
theorem Inv.setPhase (h : s.Inv) {l : CpuPhase} {owner : Option (Thread p)}
    (howner : s.owner (p.queue c) = none ∨ s.owner (p.queue c) = some (.cpu c))
    (hnew : owner = none ∧ ¬ l.Inside ∨ owner = some (.cpu c) ∧ l.Inside)
    (hentered : l = .entered → s.base.locks c = true) (hold : s.phase c ≠ .gone) (hl : l ≠ .gone) :
    Inv { s with
      owner := Function.update s.owner (p.queue c) owner
      phase := Function.update s.phase c l } := by
  have hmain : s.owner (p.queue c) ≠ some .main := by
    rcases howner with ho | ho <;> simp [ho]
  exact { h with
    main := fun k => by
      rcases eq_or_ne k (p.queue c) with rfl | hk
      · have := (h.main (p.queue c)).not.mp hmain
        rcases hnew with ⟨rfl, -⟩ | ⟨rfl, -⟩ <;> simpa using this
      · simpa [hk] using h.main k
    cpu := fun d k => by
      have := h.cpu d k
      rcases eq_or_ne d c with rfl | hdc
      · rcases eq_or_ne k (p.queue d) with rfl | hk
        · rcases hnew with ⟨rfl, hin⟩ | ⟨rfl, hin⟩ <;> simp [hin]
        · simp [hk, this, hk.symm]
      · rcases eq_or_ne k (p.queue c) with rfl | hk
        · have hbefore : s.owner (p.queue c) ≠ some (.cpu d) := by
            rcases howner with ho | ho <;> simp [ho, hdc.symm]
          have hafter : owner ≠ some (.cpu d) := by
            rcases hnew with ⟨rfl, -⟩ | ⟨rfl, -⟩ <;> simp [hdc.symm]
          simpa [hdc] using iff_of_false hafter (this.not.mp hbefore)
        · simpa [hk, hdc] using this
    entered := by
      apply (Function.forall_update_iff s.phase fun d l =>
        l = .entered → s.base.locks d = true).mpr
      exact ⟨hentered, fun d _ => h.entered d⟩
    gone := by
      apply (Function.forall_update_iff s.phase fun d l => l = .gone → s.base.cpus d = .exited).mpr
      exact ⟨fun he => absurd he hl, fun d _ => h.gone d⟩
    destroyed := fun k hk => by
      obtain ⟨d, hd, hgone⟩ := h.destroyed k hk
      have hdc : d ≠ c := by
        rintro rfl
        exact hold hgone
      exact ⟨d, hd, by simpa [hdc] using hgone⟩ }

theorem Inv.cpuStep (hN : 0 < p.N) (h : s.Inv) {now : ℤ} {base : State p}
    (htest : s.TestedOutside (.cpu c now)) (hout : s.phase c = .outside)
    (hlocks : s.base.locks c = false) (hbase : s.base.cpu c now = some base) :
    Inv { s with base := base } := by
  have st := State.cpu_effect hbase
  refine h.setBase hN st (State.cpu_cases hbase) (fun hexit hin => ?_) (by simp [hout])
    (by simp [hout])
  obtain ⟨htop | hpolling, hmark⟩ := st.of_exited hexit
  · exact htest htop hmark ((h.main _).mpr hin)
  · simp [State.locks, hpolling] at hlocks

theorem Inv.cpuBody (hN : 0 < p.N) (h : s.Inv) {now : ℤ} {base : State p}
    (hin : s.phase c = .entered) (hbase : s.base.cpu c now = some base) :
    Inv { s with base := base, phase := Function.update s.phase c .leaving } := by
  have howner : s.owner (p.queue c) = some (.cpu c) := (h.cpu c _).mpr ⟨rfl, .inl hin⟩
  have hleave := h.setPhase (c := c) (l := .leaving) (.inr howner) (.inr ⟨rfl, .inr rfl⟩)
    (by simp) (by simp [hin]) (by simp)
  rw [← howner, Function.update_eq_self] at hleave
  refine hleave.setBase hN (State.cpu_effect hbase) (State.cpu_cases hbase) (fun _ hmain => ?_)
    (by simp) (by simp)
  have := (h.main _).mpr hmain
  simp [howner] at this

theorem Inv.destroy (h : s.Inv) (hout : s.phase c = .outside) (hexit : s.base.cpus c = .exited) :
    Inv { s with
      destroyed := Function.update s.destroyed (p.queue c) true
      phase := Function.update s.phase c .gone } :=
  { h with
    cpu := fun d k => by
      rcases eq_or_ne d c with rfl | hdc
      · simpa [CpuPhase.Inside, hout] using h.cpu d k
      · simpa [hdc] using h.cpu d k
    entered := by
      apply (Function.forall_update_iff s.phase fun d l =>
        l = .entered → s.base.locks d = true).mpr
      exact ⟨by simp, fun d _ => h.entered d⟩
    gone := by
      apply (Function.forall_update_iff s.phase fun d l => l = .gone → s.base.cpus d = .exited).mpr
      exact ⟨fun _ => hexit, fun d _ => h.gone d⟩
    destroyed := fun k hk => by
      rcases eq_or_ne k (p.queue c) with rfl | hkc
      · exact ⟨c, rfl, by simp⟩
      · obtain ⟨d, hd, hgone⟩ := h.destroyed k (by simpa [hkc] using hk)
        refine ⟨d, hd, ?_⟩
        rcases eq_or_ne d c with rfl | hdc
        · simp
        · simpa [hdc] using hgone }

theorem Inv.step (hN : 0 < p.N) (h : s.Inv) {a : LockAction p} (htest : s.TestedOutside a)
    (hact : s.act a = some t) : t.Inv := by
  cases act_effect hact with
  | mainLock htarget hfree hmain => exact h.mainLock htarget hfree hmain
  | mainBody hmain hbase => exact h.mainBody hN hmain hbase
  | mainUnlock hmain => exact h.mainUnlock hmain
  | cpu hout hlocks hbase => exact h.cpuStep hN htest hout hlocks hbase
  | cpuLock hout hlocks hfree =>
    exact h.setPhase (.inl hfree) (.inr ⟨rfl, .inl rfl⟩) (fun _ => hlocks) (by simp [hout])
      (by simp)
  | cpuBody hin hbase => exact h.cpuBody hN hin hbase
  | @cpuUnlock c hleaving =>
    have howner : s.owner (p.queue c) = some (.cpu c) := (h.cpu c _).mpr ⟨rfl, .inr hleaving⟩
    exact h.setPhase (.inr howner) (.inl ⟨rfl, by simp [CpuPhase.Inside]⟩) (by simp)
      (by simp [hleaving]) (by simp)
  | destroy hmulti hout hexit => exact h.destroy hout hexit

theorem inv {w : Workload} {s : Locked w.toSchedProps} (h : (tested w).Reachable s) : s.Inv := by
  refine h.invariant ?_ fun s t _ hs ⟨a, ha⟩ => ?_
  · rintro s ⟨hbase, howner, hdestroyed, hmain, hphase⟩
    obtain ⟨-, -, -, -, -, hcpus⟩ := id hbase
    exact {
      base := w.inv (.start hbase)
      main := by simp [howner, hmain]
      cpu := by simp [howner, hphase, CpuPhase.Inside]
      target := by simp [hmain]
      entered := by simp [hphase]
      gone := by simp [hphase]
      destroyed := by simp [hdestroyed]
      clear := by simp [hcpus] }
  · obtain ⟨htest, hact⟩ := System.guarded_eq_some.mp ha
    exact hs.step w.N_pos htest hact

/-- An action makes one step of the coarse system or none, and destroys one mutex or none. -/
theorem act_cases {a : LockAction p} (hact : s.act a = some t) :
    (t.base = s.base ∨ ∃ b, s.base.act b = some t.base) ∧
      (t.destroyed = s.destroyed ∨ ∃ i, t.destroyed = Function.update s.destroyed i true) := by
  cases act_effect hact with
  | mainLock | mainUnlock | cpuLock | cpuUnlock => exact ⟨.inl rfl, .inl rfl⟩
  | mainBody hmain hbase => exact ⟨.inr ⟨_, hbase⟩, .inl rfl⟩
  | @cpu c now base hout hlocks hbase => exact ⟨.inr ⟨.cpu c now, hbase⟩, .inl rfl⟩
  | @cpuBody c now base hin hbase => exact ⟨.inr ⟨.cpu c now, hbase⟩, .inl rfl⟩
  | destroy => exact ⟨.inl rfl, .inr ⟨_, rfl⟩⟩

/-- The queues go through the states of the system without locks. -/
theorem base_reachable {w : Workload} {s : Locked w.toSchedProps} (h : (system w).Reachable s) :
    w.system.Reachable s.base := by
  refine h.simulate (f := Locked.base) (fun _ hs => hs.1) fun s t _ ⟨a, ha⟩ => ?_
  obtain ⟨hbase | ⟨b, hb⟩, -⟩ := act_cases ha
  · rw [hbase]
  · exact .single ⟨b, hb⟩

/-- A destroyed mutex stays destroyed. -/
theorem destroyed_of_act {a : LockAction p} (hact : s.act a = some t) {i : Fin p.queuesSize}
    (hi : s.destroyed i = true) : t.destroyed i = true := by
  obtain ⟨-, h | ⟨k, h⟩⟩ := act_cases hact
  · rwa [h]
  · rcases eq_or_ne i k with rfl | hk
    · simp [h]
    · simpa [h, hk] using hi

end Locked

theorem SchedProps.queue_injective (hmulti : p.sap = .multi) : Function.Injective p.queue := by
  intro c d h
  have := congrArg Fin.val h
  simpa [queue, hmulti, Fin.val_inj] using this

/-- Once a CPU has destroyed the mutex of its queue, nobody owns it, locks it or unlocks it. -/
theorem Workload.destroyed_unused (w : Workload) (hmulti : w.sap = .multi)
    {s t : Locked w.toSchedProps} {i : Fin w.queuesSize} (h : (Locked.tested w).Reachable s)
    (hi : s.destroyed i = true) (hsteps : (Locked.tested w).Steps s t) :
    t.owner i = none ∧ ∀ a, t.touches a = some i → t.act a = none := by
  have hinv := Locked.inv (h.steps hsteps)
  have hti : t.destroyed i = true :=
    hsteps.invariant (I := fun s => s.destroyed i = true) hi fun u v _ hu ⟨a, ha⟩ =>
      Locked.destroyed_of_act (System.guarded_eq_some.mp ha).2 hu
  obtain ⟨c, rfl, hgone⟩ := hinv.destroyed i hti
  have hexit := hinv.gone c hgone
  -- in this layout the queue has no other CPU
  have honly {d : Fin w.N} (hd : w.queue d = w.queue c) : d = c :=
    SchedProps.queue_injective hmulti hd
  refine ⟨?_, fun a ha => ?_⟩
  · cases howner : t.owner (w.queue c) with
    | none => rfl
    | some thread =>
      cases thread with
      | main => exact absurd ((hinv.main _).mp howner) (hinv.clear c hexit)
      | cpu d =>
        obtain ⟨hd, hin⟩ := (hinv.cpu d _).mp howner
        obtain rfl := honly hd
        simp [CpuPhase.Inside, hgone] at hin
  · cases a with
    | mainLock a => exact absurd ha (hinv.target_ne hexit a)
    | mainUnlock =>
      have hclear := hinv.clear c hexit
      cases hmain : t.main with
      | leaving k => simp_all [Locked.touches]
      | outside | entered => simp [Locked.touches, hmain] at ha
    | cpuLock d | cpuUnlock d =>
      obtain rfl := honly (Option.some.inj ha)
      simp [Locked.act, hgone]
    | mainBody | cpu | cpuBody | destroy => simp [Locked.touches] at ha

namespace Locked

/-- One CPU, and no bursts. -/
def idle : Workload where
  N := 1
  Q := 1
  sap := .multi
  qs := .rm
  alg := .fcfs
  source := .file
  jobs := []
  N_pos := by decide
  Q_pos := by decide
  pid_pos := by decide
  pid_nodup := by decide

def start (w : Workload) : Locked w.toSchedProps :=
  ⟨w.start, fun _ => none, fun _ => false, .outside, fun _ => .outside⟩

theorem init_start (w : Workload) : init w (start w) :=
  ⟨⟨fun _ => ⟨0, rfl⟩, ⟨0, rfl⟩, rfl, rfl, rfl, fun _ => rfl⟩, fun _ => rfl, fun _ => rfl, rfl,
    fun _ => rfl⟩

/-- The CPU leaves after the producer's section. -/
def idleAfter : Locked idle.toSchedProps :=
  (System.perform (System.guarded act TestedOutside)
    [.mainLock .mark, .mainBody, .mainUnlock, .cpu (Fin.last 0) 0, .destroy (Fin.last 0)]
    (start idle)).get (by decide +kernel)

theorem destroyed_unused_idleAfter :
    idleAfter.owner (idle.queue (Fin.last 0)) = none ∧
      ∀ a, idleAfter.touches a = some (idle.queue (Fin.last 0)) → idleAfter.act a = none :=
  Workload.destroyed_unused idle rfl
    ⟨_, init_start idle, System.steps_of_perform (Option.some_get _).symm⟩ (by decide +kernel) .refl

/-- The CPU leaves while the producer is still inside of it. -/
def idleDuring : Locked idle.toSchedProps :=
  (System.perform act
    [.mainLock .mark, .mainBody, .cpu (Fin.last 0) 0, .destroy (Fin.last 0)] (start idle)).get
    (by decide +kernel)

theorem destroyed_owned_idleDuring :
    ∃ s, (system idle).Reachable s ∧ s.destroyed (idle.queue (Fin.last 0)) = true ∧
      s.owner (idle.queue (Fin.last 0)) = some .main :=
  ⟨idleDuring, ⟨_, init_start idle, System.steps_of_perform (Option.some_get _).symm⟩,
    by decide +kernel, by decide +kernel⟩

end Locked

end Cs342.Scheduler
