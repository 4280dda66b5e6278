import Mathlib.Data.Rat.Floor
import Cs342.Scheduler.Conservation

/-!
# Round-robin time accounting

A CPU that runs a burst executes one slice of it: the quantum, after which the burst
goes back into the queue, or all that remains, after which it is finished. The slices of
one burst are spread over the run and over the CPUs; what remains of the burst is always
its length less the slices so far. A slice changes the account of no other burst, since
no other burst has the pid.
-/

namespace Cs342.Scheduler

open Library

/-- How long a CPU executes the burst it has taken. -/
def SchedProps.execTime (p : SchedProps) (burst : BurstItem) : ℤ :=
  match p.alg with
  | .fcfs => burst.burstLength
  | .sjf => burst.remainingTime
  | .rr => if burst.remainingTime > p.Q then p.Q else burst.remainingTime

/-- The argument of `usleep` for a time in milliseconds: the product is an `int`, the parameter
unsigned. -/
def usleepArg (time : ℤ) : ℤ := toInt (time * 1000) % 2 ^ 32

theorem usleepArg_eq {time : ℤ} (hlo : 0 ≤ time) (hhi : 1000 * time < 2 ^ 32) :
    usleepArg time = 1000 * time := by
  unfold usleepArg toInt
  simp only [Int.bmod]
  omega

/-- The slices of the burst `pid` among those a run has executed. -/
def slicesOf (pid : ℤ) (slices : List (ℤ × ℤ)) : List ℤ :=
  (slices.filter fun x => x.1 = pid).map Prod.snd

section

variable {pid k x : ℤ} {slices : List (ℤ × ℤ)}

@[simp] theorem slicesOf_nil : slicesOf pid [] = [] := rfl

@[simp] theorem slicesOf_concat_self :
    slicesOf pid (slices ++ [(pid, x)]) = slicesOf pid slices ++ [x] := by
  simp [slicesOf]

theorem slicesOf_concat_of_ne (h : k ≠ pid) :
    slicesOf k (slices ++ [(pid, x)]) = slicesOf k slices := by
  simp [slicesOf, h.symm]

end

/-! ## The account of one burst -/

namespace BurstItem

/-- So far the burst was executed in whole quanta, and some of it remains. -/
structure Unfinished (Q : ℤ) (b : BurstItem) (slices : List ℤ) : Prop where
  remaining : 1 ≤ b.remainingTime
  whole : slices = List.replicate slices.length Q
  charged : b.remainingTime + slices.sum = b.burstLength

/-- The burst was executed in whole quanta but for the last slice, and nothing remains. -/
structure Finished (Q : ℤ) (b : BurstItem) (slices : List ℤ) : Prop where
  remaining : b.remainingTime = 0
  whole : ∃ n last, slices = List.replicate n Q ++ [last] ∧ 1 ≤ last ∧ last ≤ Q
  charged : slices.sum = b.burstLength

variable {Q : ℤ} {b b' : BurstItem} {slices : List ℤ}

theorem Unfinished.requeue (h : b.Unfinished Q slices) (hQ : b.remainingTime > Q) :
    ({ b with remainingTime := b.remainingTime - Q } : BurstItem).Unfinished Q
      (slices ++ [Q]) where
  remaining := by simp only; omega
  whole := by
    rw [List.length_append, List.length_singleton, List.replicate_succ', ← h.whole]
  charged := by
    have hcharged := h.charged
    simp only [List.sum_append, List.sum_singleton]
    omega

theorem Unfinished.finish (h : b.Unfinished Q slices) (hQ : ¬ b.remainingTime > Q)
    (hjob : b'.job = b.job) (hremaining : b'.remainingTime = 0) :
    b'.Finished Q (slices ++ [b.remainingTime]) where
  remaining := hremaining
  whole := ⟨slices.length, b.remainingTime, by rw [← h.whole], h.remaining, not_lt.mp hQ⟩
  charged := by
    have hcharged := h.charged
    have hlength : b'.burstLength = b.burstLength := congrArg Job.burstLength hjob
    rw [List.sum_append, List.sum_singleton, hlength]
    omega

/-- The number of slices is the length divided by the quantum, rounded up. -/
theorem Finished.length_eq (hQ : 1 ≤ Q) (h : b.Finished Q slices) :
    (slices.length : ℤ) = ⌈(b.burstLength : ℚ) / Q⌉ := by
  obtain ⟨n, last, rfl, hpos, hle⟩ := h.whole
  have hlength : (n : ℤ) * Q + last = b.burstLength := by
    simpa using h.charged
  have hQ' : (0 : ℚ) < Q := by exact_mod_cast hQ
  symm
  rw [Int.ceil_eq_iff, ← hlength, lt_div_iff₀ hQ', div_le_iff₀ hQ']
  simp only [List.length_append, List.length_replicate, List.length_singleton]
  constructor
  · push_cast
    have : (1 : ℚ) ≤ last := by exact_mod_cast hpos
    linarith
  · push_cast
    have : (last : ℚ) ≤ Q := by exact_mod_cast hle
    linarith

end BurstItem

/-! ## The account of a run -/

namespace State

variable {p : SchedProps} {s t : State p} {a : Action p} {P : Place p → BurstItem → Prop}

/-- The slice a step executes: of which burst, and how long. -/
def slice (s : State p) : Action p → List (ℤ × ℤ)
  | .produce _ _ _ => []
  | .mark => []
  | .cpu c _ =>
    match s.cpus c with
    | .running burst => [(burst.pid, p.execTime burst)]
    | _ => []

/-- The account of a burst at a place. -/
def Account (p : SchedProps) (slices : List (ℤ × ℤ)) : Place p → BurstItem → Prop
  | .ready _, b | .hands _, b => b.Unfinished p.Q (slicesOf b.pid slices)
  | .finished, b => b.Finished p.Q (slicesOf b.pid slices)

structure Accounted (s : State p) (slices : List (ℤ × ℤ)) : Prop where
  placed : ∀ pl, ∀ b ∈ s.burstsAt pl, Account p slices pl b
  todo : ∀ j ∈ s.todo, 1 ≤ j.burstLength ∧ slicesOf j.pid slices = []

theorem forall_burstsAt_setQueue {i : Fin p.queuesSize} {q : Queue}
    (hq : ∀ b ∈ q.bursts, P (.ready i) b) (h : ∀ pl, ∀ b ∈ s.burstsAt pl, P pl b) :
    ∀ pl, ∀ b ∈ (s.setQueue i q).burstsAt pl, P pl b := by
  rw [burstsAt_setQueue]
  apply (Function.forall_update_iff s.burstsAt fun pl l => ∀ b ∈ l, P pl b).mpr
  exact ⟨hq, fun pl _ => h pl⟩

theorem forall_burstsAt_setFinished {q : Queue} (hq : ∀ b ∈ q.bursts, P .finished b)
    (h : ∀ pl, ∀ b ∈ s.burstsAt pl, P pl b) :
    ∀ pl, ∀ b ∈ (s.setFinished q).burstsAt pl, P pl b := by
  rw [burstsAt_setFinished]
  apply (Function.forall_update_iff s.burstsAt fun pl l => ∀ b ∈ l, P pl b).mpr
  exact ⟨hq, fun pl _ => h pl⟩

/-- What the CPU held before does not matter. -/
theorem forall_burstsAt_setCpu {c : Fin p.N} {l : CpuState} (hl : ∀ b ∈ l.bursts, P (.hands c) b)
    (h : ∀ pl, ∀ b ∈ s.burstsAt pl, pl ≠ .hands c → P pl b) :
    ∀ pl, ∀ b ∈ (s.setCpu c l).burstsAt pl, P pl b := by
  rw [burstsAt_setCpu]
  apply (Function.forall_update_iff s.burstsAt fun pl l => ∀ b ∈ l, P pl b).mpr
  exact ⟨hl, fun pl hpl b hb => h pl b hb hpl⟩

/-- A CPU that does not run a burst executes no slice. -/
theorem slice_eq_nil {c : Fin p.N} {now : ℤ} (idle : s.cpus c = .top ∨ s.cpus c = .polling) :
    s.slice (.cpu c now) = [] := by
  rcases idle with hc | hc <;> simp [slice, hc]

theorem Accounted.setCpu {slices : List (ℤ × ℤ)} (h : s.Accounted slices) {c : Fin p.N}
    {l : CpuState} (hl : l.bursts = []) : (s.setCpu c l).Accounted slices :=
  ⟨forall_burstsAt_setCpu (by simp [hl]) fun pl b hb _ => h.placed pl b hb, h.todo⟩

theorem mem_burstsAt_hands {c : Fin p.N} {b : BurstItem} (hc : s.cpus c = .running b) :
    b ∈ s.burstsAt (.hands c) := by
  simp [burstsAt, hc, CpuState.bursts]

end State

namespace Workload

variable {w : Workload} {s t s₀ : State w.toSchedProps} {a : Action w.toSchedProps}
  {as : List (Action w.toSchedProps)} {slices : List (ℤ × ℤ)} {b : BurstItem}

/-- No other place has a burst with the pid of this one, and none is still to be produced. -/
theorem pid_ne {pl : Place w.toSchedProps} (h : w.system.Reachable s) (hb : b ∈ s.burstsAt pl) :
    (∀ k, ∀ x ∈ s.burstsAt k, k ≠ pl → x.pid ≠ b.pid) ∧ ∀ j ∈ s.todo, j.pid ≠ b.pid := by
  have hled := w.ledger_reachable h
  have hnd : (w.jobs : Multiset Job).Nodup := w.pid_nodup.of_map _
  have hplace := State.mem_jobsAt hb
  have hpending : b.job ∉ s.todo := Ledger.notMem_pending hled hnd hplace
  -- a job of the workload with this pid is the job of the burst
  have hinj {j : Job} (hj : j ∈ w.jobs) (hpid : j.pid = b.pid) : j = b.job :=
    List.inj_on_of_nodup_map w.pid_nodup hj (job_mem h hb) hpid
  constructor
  · intro k x hx hk hpid
    have hjob : x.job = b.job := hinj (job_mem h hx) hpid
    have hother := State.mem_jobsAt hx
    rw [hjob] at hother
    have hunique := Ledger.existsUnique_place hled hnd (job_mem h hb) hpending
    exact hk (hunique.unique hother hplace)
  · intro j hj hpid
    exact hpending (hinj (todo_mem h hj) hpid ▸ hj)

/-- A slice is charged to the burst that is run, and no other account changes. -/
theorem account_slice (h : w.system.Reachable s) (hacc : s.Accounted slices) {c : Fin w.N}
    (hc : s.cpus c = .running b) (x : ℤ) :
    (∀ pl, ∀ y ∈ s.burstsAt pl, pl ≠ .hands c →
        State.Account w.toSchedProps (slices ++ [(b.pid, x)]) pl y) ∧
      ∀ j ∈ s.todo, 1 ≤ j.burstLength ∧ slicesOf j.pid (slices ++ [(b.pid, x)]) = [] := by
  obtain ⟨hplaces, htodo⟩ := pid_ne h (State.mem_burstsAt_hands hc)
  constructor
  · intro pl y hy hpl
    have hold := hacc.placed pl y hy
    have hsame : slicesOf y.pid (slices ++ [(b.pid, x)]) = slicesOf y.pid slices :=
      slicesOf_concat_of_ne (hplaces pl y hy hpl)
    cases pl <;> simpa only [State.Account, hsame] using hold
  · intro j hj
    rw [slicesOf_concat_of_ne (htodo j hj)]
    exact hacc.todo j hj

/-- Every step keeps the accounts. -/
theorem accounted_step (halg : w.alg = .rr) (h : w.system.Reachable s)
    (hacc : s.Accounted slices) (hact : s.act a = some t) :
    t.Accounted (slices ++ s.slice a) := by
  have hinv := w.inv h
  cases a with
  | produce arrivalTime seen unset =>
    obtain ⟨j, todo, q, htodo, hbursts, rfl⟩ := hinv.produce_bursts hact
    set i := w.select s.queueZero s.rrQueueIdx seen
    obtain ⟨hlength, hnone⟩ := hacc.todo j (by simp [htodo])
    have hnew : State.Account w.toSchedProps slices (.ready i)
        (w.mkBurst j arrivalTime i unset) := by
      have hpid : slicesOf (w.mkBurst j arrivalTime i unset).pid slices = [] := hnone
      refine ⟨hlength, ?_, ?_⟩ <;> rw [hpid]
      · rfl
      · exact add_zero _
    simp only [State.slice, List.append_nil]
    refine ⟨State.forall_burstsAt_setQueue ?_ hacc.placed, fun k hk => ?_⟩
    · intro b hb
      rcases List.mem_append.mp (hbursts ▸ hb) with hb | hb
      · exact hacc.placed (.ready i) b hb
      · exact List.mem_singleton.mp hb ▸ hnew
    · exact hacc.todo k (htodo ▸ List.mem_cons_of_mem j hk)
  | mark =>
    obtain ⟨i, q, hbursts, rfl⟩ := hinv.mark_bursts hact
    simp only [State.slice, List.append_nil]
    refine ⟨State.forall_burstsAt_setQueue ?_ hacc.placed, hacc.todo⟩
    intro b hb
    exact hacc.placed (.ready i) b (by rwa [State.burstsAt, ← hbursts])
  | cpu c now =>
    cases State.cpu_effect hact with
    | poll idle =>
      rw [State.slice_eq_nil (idle.imp And.left And.left), List.append_nil]
      exact hacc.setCpu rfl
    | exit idle hmark =>
      rw [State.slice_eq_nil idle, List.append_nil]
      exact hacc.setCpu rfl
    | @take b q hc hsize hmark hpick =>
      obtain ⟨pre, post, hsplit, -, hbursts⟩ := (hinv.queues (w.queue c)).pick hsize hmark hpick
      have hready (y : BurstItem) (hy : y ∈ pre ++ b :: post) :
          y.Unfinished w.Q (slicesOf y.pid slices) :=
        hacc.placed (.ready (w.queue c)) y (by rwa [State.burstsAt, hsplit])
      simp only [State.slice, hc, List.append_nil]
      refine ⟨State.forall_burstsAt_setCpu ?_ fun pl y hy _ => ?_, hacc.todo⟩
      · intro y hy
        obtain rfl := List.mem_singleton.mp hy
        exact hready y (by simp)
      · refine State.forall_burstsAt_setQueue ?_ hacc.placed pl y hy
        intro y hy
        rw [hbursts] at hy
        refine hready y ?_
        grind
    | @requeue b q hc hslice hq =>
      have hpid : ({ b with remainingTime := b.remainingTime - w.Q } : BurstItem).pid ≠ -1 :=
        hinv.hands c b hc
      obtain ⟨-, hbursts⟩ := (hinv.queues (w.queue c)).enqueue hpid hq
      have hheld := hacc.placed (.hands c) b (State.mem_burstsAt_hands hc)
      obtain ⟨hothers, htodo⟩ := account_slice h hacc hc w.Q
      simp only [State.slice, hc, SchedProps.execTime, halg, if_pos hslice.2]
      refine ⟨State.forall_burstsAt_setCpu (by simp [CpuState.bursts]) ?_, htodo⟩
      refine State.forall_burstsAt_setQueue (fun y hy _ => ?_) hothers
      rcases List.mem_append.mp (hbursts ▸ hy) with hy | hy
      · exact hothers (.ready (w.queue c)) y hy (by simp)
      · rw [List.mem_singleton.mp hy]
        rw [State.Account, slicesOf_concat_self]
        exact hheld.requeue hslice.2
    | @finish b b' q hc hlast hjob hremaining hq =>
      obtain ⟨-, hbursts⟩ := hinv.finished.enqueue (hinv.pid_ne_of_running hc hjob) hq
      have hheld := hacc.placed (.hands c) b (State.mem_burstsAt_hands hc)
      have hle : ¬ b.remainingTime > w.Q := fun hgt => hlast ⟨halg, hgt⟩
      obtain ⟨hothers, htodo⟩ := account_slice h hacc hc b.remainingTime
      simp only [State.slice, hc, SchedProps.execTime, halg, if_neg hle]
      refine ⟨State.forall_burstsAt_setCpu (by simp [CpuState.bursts]) ?_, htodo⟩
      refine State.forall_burstsAt_setFinished (fun y hy _ => ?_) hothers
      rcases List.mem_append.mp (hbursts ▸ hy) with hy | hy
      · exact hothers .finished y hy (by simp)
      · rw [List.mem_singleton.mp hy]
        have hsame : b'.pid = b.pid := congrArg Job.pid hjob
        rw [State.Account, hsame, slicesOf_concat_self]
        exact hheld.finish hle hjob hremaining

/-- The accounts at the start: no burst is anywhere yet. -/
theorem accounted_start (hlengths : ∀ j ∈ w.jobs, 1 ≤ j.burstLength) (h₀ : w.init s) :
    s.Accounted [] where
  placed pl b hb := by simp [burstsAt_init h₀] at hb
  todo j hj := ⟨hlengths j (h₀.2.2.1 ▸ hj), rfl⟩

/-- At any moment of a round-robin run, what remains of a burst and the slices it was executed
in add up to its length; a burst in `finishedQueue` has nothing left and was executed in whole
quanta but for the last slice, as many as the length divided by the quantum, rounded up. -/
theorem round_robin_slices (halg : w.alg = .rr) (hlengths : ∀ j ∈ w.jobs, 1 ≤ j.burstLength)
    (h₀ : w.init s₀) (hrun : System.perform State.act as s₀ = some s) :
    let slices (b : BurstItem) := slicesOf b.pid (System.collect State.act State.slice as s₀)
    (∀ pl, ∀ b ∈ s.burstsAt pl, b.job ∈ w.jobs ∧
      b.remainingTime + (slices b).sum = b.burstLength) ∧
    ∀ b ∈ s.finishedQueue.items, b.job ∈ w.jobs ∧ b.remainingTime = 0 ∧
      ((slices b).length : ℤ) = ⌈(b.burstLength : ℚ) / w.Q⌉ ∧
      ∃ n last, slices b = List.replicate n w.Q ++ [last] ∧ 1 ≤ last ∧ last ≤ w.Q := by
  intro slices
  have hinvariant : w.system.Reachable s ∧
      s.Accounted (System.collect State.act State.slice as s₀) := by
    refine System.collect_invariant (J := fun s slices => w.system.Reachable s ∧
      s.Accounted slices) ⟨.start h₀, accounted_start hlengths h₀⟩ ?_ hrun
    rintro s a t shown ⟨hs, hacc⟩ hact
    exact ⟨hs.next ⟨a, hact⟩, accounted_step halg hs hacc hact⟩
  obtain ⟨hs, hacc⟩ := hinvariant
  refine ⟨fun pl b hb => ⟨job_mem hs hb, ?_⟩, fun b hb => ?_⟩
  · have haccount := hacc.placed pl b hb
    cases pl with
    | ready | hands => exact haccount.charged
    | finished =>
      rw [haccount.remaining, zero_add]
      exact haccount.charged
  · have hb : b ∈ s.burstsAt .finished := by rwa [State.burstsAt, ← (w.inv hs).finished_items]
    have haccount : b.Finished w.Q (slices b) := hacc.placed .finished b hb
    exact ⟨job_mem hs hb, haccount.remaining, haccount.length_eq (w.Q_pos halg), haccount.whole⟩

theorem round_robin_slices_pairEnd :
    let slices (b : BurstItem) := slicesOf b.pid
      (System.collect State.act State.slice pairActions pair.start)
    (∀ pl, ∀ b ∈ pairEnd.burstsAt pl, b.job ∈ pair.jobs ∧
      b.remainingTime + (slices b).sum = b.burstLength) ∧
    ∀ b ∈ pairEnd.finishedQueue.items, b.job ∈ pair.jobs ∧ b.remainingTime = 0 ∧
      ((slices b).length : ℤ) = ⌈(b.burstLength : ℚ) / pair.Q⌉ ∧
      ∃ n last, slices b = List.replicate n pair.Q ++ [last] ∧ 1 ≤ last ∧ last ≤ pair.Q :=
  round_robin_slices (w := pair) rfl (by decide)
    ⟨fun _ => ⟨0, rfl⟩, ⟨0, rfl⟩, rfl, rfl, rfl, fun _ => rfl⟩ (Option.some_get _).symm

end Workload

end Cs342.Scheduler
