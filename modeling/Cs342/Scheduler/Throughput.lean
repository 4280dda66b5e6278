import Mathlib.Algebra.BigOperators.Ring.Finset
import Cs342.Library.Ranking
import Cs342.Scheduler.Completion
import Cs342.Scheduler.FirstCome
import Cs342.Scheduler.Waiting

/-!
# Throughput

Under every algorithm the time the CPUs execute is taken off what remains of the bursts,
so what has been executed and what is still owed add up to the lengths of the workload.
Against the clock a CPU executes no faster than time passes, so `N` CPUs need at
least an `N`-th of the lengths of all bursts.
-/

namespace Cs342.Scheduler

open Library

/-! ## Time owed -/

def CpuState.remaining : CpuState → ℤ
  | .running b => b.remainingTime
  | .top | .polling | .exited => 0

def timeWeights : State.Weights ℤ where
  job := Job.burstLength
  ready := BurstItem.remainingTime
  cpu := CpuState.remaining

/-- The time still to be executed. -/
def State.owed {p : SchedProps} (s : State p) : ℤ := s.amount timeWeights

def Workload.length (w : Workload) : ℤ := (w.jobs.map Job.burstLength).sum

namespace Workload

variable {w : Workload} {s t s₀ : State w.toSchedProps} {a : Action w.toSchedProps}
  {as : List (Action w.toSchedProps)} {b : BurstItem}

/-- The last slice of a burst is all that remains of it. -/
theorem execTime_last (h : w.system.Reachable s) {c : Fin w.N} (hc : s.cpus c = .running b)
    (hlast : ¬ (w.alg = .rr ∧ b.remainingTime > w.Q)) : w.execTime b = b.remainingTime := by
  by_cases halg : w.alg = .rr
  · simp only [SchedProps.execTime, halg, if_neg fun hgt => hlast ⟨halg, hgt⟩]
  · rw [execTime_eq halg h hc]
    exact (remaining_eq halg h (.hands c) b (State.mem_burstsAt_hands hc) (by simp)).symm

/-- What a step executes is owed no longer. -/
theorem owed_step (h : w.system.Reachable s) (hact : s.act a = some t) :
    t.owed + ((s.slice a).map Prod.snd).sum = s.owed := by
  have hinv := w.inv h
  cases a with
  | produce arrivalTime seen unset =>
    obtain ⟨j, b, -, hlength, -, hamount⟩ := hinv.amount_produce timeWeights hact
    simp only [timeWeights, hlength] at hamount
    simp only [State.owed, State.slice, timeWeights, List.map_nil, List.sum_nil]
    omega
  | mark => simpa [State.slice, State.owed] using hinv.amount_mark timeWeights hact
  | cpu c now =>
    cases State.cpu_effect hact with
    | poll idle =>
      have hset := State.amount_setCpu (s := s) (c := c) timeWeights .polling
      rw [State.slice_eq_nil (idle.imp And.left And.left)]
      rcases idle with ⟨hc, -⟩ | ⟨hc, -⟩ <;>
        simpa [State.owed, timeWeights, CpuState.remaining, hc] using hset
    | exit idle =>
      have hset := State.amount_setCpu (s := s) (c := c) timeWeights .exited
      rw [State.slice_eq_nil idle]
      rcases idle with hc | hc <;>
        simpa [State.owed, timeWeights, CpuState.remaining, hc] using hset
    | @take b q hc hsize hmark hpick =>
      have htake := hinv.amount_take timeWeights hc hsize hmark hpick
      simp only [timeWeights, CpuState.remaining] at htake
      simp only [State.owed, State.slice, hc, timeWeights, List.map_nil, List.sum_nil]
      omega
    | @requeue b q hc hslice hq =>
      have hjob : ({ b with remainingTime := b.remainingTime - w.Q } : BurstItem).job = b.job :=
        rfl
      have hput := hinv.amount_requeue timeWeights hc hjob hq
      simp only [timeWeights, CpuState.remaining] at hput
      simp only [State.owed, State.slice, hc, timeWeights, SchedProps.execTime, hslice.1,
        if_pos hslice.2, List.map_cons, List.map_nil, List.sum_singleton]
      omega
    | @finish b b' q hc hlast =>
      have hput := State.amount_finish (s := s) (q := q) timeWeights hc
      simp only [timeWeights, CpuState.remaining] at hput
      simp only [State.owed, State.slice, hc, timeWeights, execTime_last h hc hlast,
        List.map_cons, List.map_nil, List.sum_singleton]
      omega

theorem owed_init (h₀ : w.init s₀) : s₀.owed = w.length := by
  have hready (i : Fin w.queuesSize) : (s₀.queues i).bursts = [] := burstsAt_init h₀ (.ready i)
  simp [State.owed, State.amount, timeWeights, hready, h₀.2.2.1, h₀.2.2.2.2.2, CpuState.remaining,
    length]

/-- When no CPU is in its loop any more and nothing is left to produce, nothing is owed. -/
theorem owed_eq_zero (h : s.Inv) (htodo : s.todo = []) (hcpus : ∀ c, s.cpus c = .exited) :
    s.owed = 0 := by
  simp [State.owed, State.amount, timeWeights, htodo, hcpus, h.bursts_eq_nil hcpus,
    CpuState.remaining]

/-- At every moment of every run, whatever the algorithm, the time executed so far and the time
still owed add up to the lengths of the workload. -/
theorem busy_time (h₀ : w.init s₀) (hrun : System.perform State.act as s₀ = some s) :
    ((System.collect State.act State.slice as s₀).map Prod.snd).sum + s.owed = w.length := by
  refine (System.collect_invariant (J := fun s shown => w.system.Reachable s ∧
    (shown.map Prod.snd).sum + s.owed = w.length) ⟨.start h₀, ?_⟩ ?_ hrun).2
  · simpa using owed_init h₀
  · rintro s a t shown ⟨hs, hsum⟩ hact
    refine ⟨hs.next ⟨a, hact⟩, ?_⟩
    have hstep := owed_step hs hact
    rw [List.map_append, List.sum_append]
    omega

theorem busy_time_pairEnd :
    ((System.collect State.act State.slice pairActions pair.start).map Prod.snd).sum +
      pairEnd.owed = pair.length :=
  busy_time pair.init_start (Option.some_get _).symm

end Workload

/-! ## Against the clock -/

namespace Clocked

variable {p : SchedProps}

/-- The slice a step executes: on which CPU, and how long. -/
def ran (s : Clocked p) : TimedAction p → Records (Fin p.N)
  | .cpu c _ _ =>
    match s.state.cpus c with
    | .running burst => [(c, p.execTime burst)]
    | _ => []
  | .produce _ _ _ _ | .mark _ => []

/-- Until when a CPU has certainly done what it has executed: since then it has its burst. -/
def done (s : Clocked p) (c : Fin p.N) : ℤ :=
  match s.state.cpus c with
  | .running _ => s.since c
  | _ => s.clock

end Clocked

namespace Workload

variable {w : Workload} {start : Timeval} {s t s₀ : Clocked w.toSchedProps}
  {a : TimedAction w.toSchedProps} {as : List (TimedAction w.toSchedProps)}
  {ran : Records (Fin w.N)}

/-- What holds after a run that began at the instant `began` and has executed `ran`. -/
structure Timed (start : Timeval) (began : ℤ) (s : Clocked w.toSchedProps)
    (ran : Records (Fin w.N)) : Prop where
  punctual : w.Punctual start s
  began_le : began ≤ s.clock
  owed : (ran.map Prod.snd).sum + s.state.owed = w.length
  since_le : ∀ c, s.done c ≤ s.clock
  busy : ∀ c, 1000 * tally ran c ≤ s.done c - began

variable {began now : ℤ} {state : State w.toSchedProps} {arrived : ℤ → Timeval}
  {since : Fin w.N → ℤ} {c d : Fin w.N} {read : Timeval}

/-- A CPU that is left alone has its burst since when it had it, or none, while time passes. -/
theorem Timed.done_le (h : Timed start began s ran) (hnow : s.clock ≤ now)
    (hcpu : state.cpus d = s.state.cpus d) (hsince : since d = s.since d) :
    s.done d ≤ (⟨state, now, arrived, since⟩ : Clocked w.toSchedProps).done d ∧
      (⟨state, now, arrived, since⟩ : Clocked w.toSchedProps).done d ≤ now := by
  have hle := h.since_le d
  unfold Clocked.done at hle ⊢
  cases hd : s.state.cpus d <;> simp only [hd] at hle <;> simp only [hcpu, hd] <;> omega

/-- A step of the producer. -/
theorem Timed.wait (h : Timed start began s ran) (hnow : s.clock ≤ now)
    (hpunctual : w.Punctual start ⟨state, now, arrived, s.since⟩)
    (hcpus : state.cpus = s.state.cpus) (howed : state.owed = s.state.owed) :
    Timed start began ⟨state, now, arrived, s.since⟩ ran where
  punctual := hpunctual
  began_le := h.began_le.trans hnow
  owed := howed ▸ h.owed
  since_le c := (h.done_le hnow (congrFun hcpus c) rfl).2
  busy c := (h.busy c).trans
    (sub_le_sub_right (h.done_le hnow (congrFun hcpus c) rfl).1 _)

/-- What a CPU executes, it executes in the time that has passed. -/
theorem Timed.busy_cpu
    (hlengths : ∀ j ∈ w.jobs, 1 ≤ j.burstLength ∧ 1000 * j.burstLength < 2 ^ 32)
    (h : Timed start began s ran) (hnow : s.clock ≤ now) (hawake : s.Awake c read now) :
    1000 * tally (ran ++ s.ran (.cpu c read now)) c ≤ now - began := by
  have hbusy := h.busy c
  have hle := h.since_le c
  rw [tally_append]
  cases hc : s.state.cpus c with
  | running b =>
    obtain ⟨-, hslept, hread, -⟩ := h.punctual.slept hlengths hc hawake
    simp only [Clocked.done, hc] at hbusy
    simp only [Clocked.ran, hc, tally_cons, if_pos, tally_nil]
    omega
  | top | polling | exited =>
    simp only [Clocked.ran, hc, tally_nil]
    omega

theorem tally_ran (hd : d ≠ c) : tally (s.ran (.cpu c read now)) d = 0 := by
  cases hc : s.state.cpus c <;> simp [Clocked.ran, hc, tally_cons, hd.symm]

theorem Timed.step (hlengths : ∀ j ∈ w.jobs, 1 ≤ j.burstLength ∧ 1000 * j.burstLength < 2 ^ 32)
    (h : Timed start began s ran) (hact : s.act start a = some t) :
    Timed start began t (ran ++ s.ran a) := by
  have hpunctual := h.punctual.step hlengths hact
  have hreachable := h.punctual.reachable
  cases a with
  | produce read now seen unset =>
    obtain ⟨⟨hclock, -, -⟩, j, todo, state, -, hstate, rfl⟩ := Clocked.produce_cases hact
    have howed := owed_step hreachable hstate
    rw [Clocked.ran, List.append_nil]
    refine h.wait hclock hpunctual ?_ (by simpa [State.slice] using howed)
    obtain ⟨j', todo', q, -, -, rfl⟩ := State.produce_cases hstate
    rfl
  | mark now =>
    obtain ⟨hclock, state, hstate, rfl⟩ := Clocked.mark_cases hact
    have howed := owed_step hreachable hstate
    rw [Clocked.ran, List.append_nil]
    refine h.wait hclock hpunctual ?_ (by simpa [State.slice] using howed)
    obtain ⟨i, q, -, -, -, rfl⟩ := State.mark_cases hstate
    rfl
  | cpu c read now =>
    obtain ⟨⟨hclock, hawake⟩, state, hstate, rfl⟩ := Clocked.cpu_cases hact
    obtain ⟨-, -, -, hframe⟩ := (State.cpu_effect hstate).frame
    -- whatever the CPU does now, it has until now done all that it has executed
    have hdone : (⟨state, now, s.arrived, Function.update s.since c now⟩ :
        Clocked w.toSchedProps).done c = now := by
      unfold Clocked.done
      split <;> simp
    have howed := owed_step hreachable hstate
    have hran : (s.ran (.cpu c read now)).map Prod.snd =
        (s.state.slice (.cpu c (toInt (getTimeDiff start read)))).map Prod.snd := by
      cases hc : s.state.cpus c <;> simp [Clocked.ran, State.slice, hc]
    refine ⟨hpunctual, h.began_le.trans hclock, ?_, fun d => ?_, fun d => ?_⟩
    · have := h.owed
      rw [List.map_append, List.sum_append, hran]
      simp only
      omega
    · rcases eq_or_ne d c with rfl | hd
      · exact hdone.le
      · exact (h.done_le hclock (hframe d hd) (Function.update_of_ne hd _ _)).2
    · rcases eq_or_ne d c with rfl | hd
      · rw [hdone]
        exact h.busy_cpu hlengths hclock hawake
      · rw [tally_append, tally_ran hd, add_zero]
        exact (h.busy d).trans (sub_le_sub_right
          (h.done_le hclock (hframe d hd) (Function.update_of_ne hd _ _)).1 _)

/-- No CPU executes faster than time passes. So when all bursts are finished, the time since
the start is at least the lengths of the workload divided by the number of CPUs. -/
theorem makespan (hlengths : ∀ j ∈ w.jobs, 1 ≤ j.burstLength ∧ 1000 * j.burstLength < 2 ^ 32)
    (h₀ : w.init s₀.state) (hrun : System.perform (Clocked.act start) as s₀ = some s) :
    let ran := System.collect (Clocked.act start) Clocked.ran as s₀
    (∀ c, 1000 * tally ran c ≤ s.clock - s₀.clock) ∧
      ∑ c, tally ran c + s.state.owed = w.length ∧
      (w.Over s.state → 1000 * w.length ≤ w.N * (s.clock - s₀.clock)) := by
  intro ran
  have htimed : Timed start s₀.clock s ran := by
    refine System.collect_invariant (J := fun s ran => Timed start s₀.clock s ran) ?_
      (fun s a t shown h hact => h.step hlengths hact) hrun
    refine ⟨punctual_start h₀, le_rfl, by simpa using owed_init h₀, fun c => ?_, fun c => ?_⟩
    · simp [Clocked.done, h₀.2.2.2.2.2]
    · simp [Clocked.done, h₀.2.2.2.2.2]
  have hbusy (c : Fin w.N) : 1000 * tally ran c ≤ s.clock - s₀.clock :=
    (htimed.busy c).trans (sub_le_sub_right (htimed.since_le c) _)
  have howed : ∑ c, tally ran c + s.state.owed = w.length := by
    rw [sum_tally]
    exact htimed.owed
  refine ⟨hbusy, howed, fun hover => ?_⟩
  have hnone := owed_eq_zero (w.inv htimed.punctual.reachable) hover.produced hover.left
  calc 1000 * w.length = ∑ c, 1000 * tally ran c := by
        rw [← howed, hnone, add_zero, Finset.mul_sum]
    _ ≤ ∑ _c : Fin w.N, (s.clock - s₀.clock) := Finset.sum_le_sum fun c _ => hbusy c
    _ = w.N * (s.clock - s₀.clock) := by
        rw [Finset.sum_const, Finset.card_univ, Fintype.card_fin, nsmul_eq_mul]

/-- The two CPUs that share a queue, with sleeps of a second. -/
def promptActions : List (TimedAction pair.toSchedProps) :=
  let seen : Seen pair.queuesSize := ⟨0, fun _ => 0, fun _ => 0⟩
  let cpu0 : Fin 2 := Fin.rev (Fin.last 1)
  let cpu1 : Fin 2 := Fin.last 1
  let one : Timeval := { onTheSecond with tv_sec := 1 }
  let two : Timeval := { onTheSecond with tv_sec := 2 }
  [.produce onTheSecond 0 seen 0, .cpu cpu0 onTheSecond 0, .cpu cpu0 onTheSecond 0,
   .produce onTheSecond 0 seen 0, .cpu cpu1 onTheSecond 0, .cpu cpu1 onTheSecond 0, .mark 0,
   .cpu cpu1 one 1000000, .cpu cpu1 one 1000000, .cpu cpu0 one 1000000, .cpu cpu0 one 1000000,
   .cpu cpu0 one 1000000, .cpu cpu0 two 2000000, .cpu cpu0 two 2000000]

def promptEnd : Clocked pair.toSchedProps :=
  (System.perform (Clocked.act onTheSecond) promptActions clockedPair).get (by decide +kernel)

theorem over_promptEnd : pair.Over promptEnd.state :=
  ⟨by decide +kernel, by decide +kernel, by decide +kernel, by decide +kernel, by decide +kernel⟩

theorem makespan_promptEnd :
    1000 * pair.length ≤ pair.N * (promptEnd.clock - clockedPair.clock) := by
  have hrun : System.perform (Clocked.act onTheSecond) promptActions clockedPair =
      some promptEnd := (Option.some_get _).symm
  exact (makespan (by decide) pair.init_start hrun).2.2 over_promptEnd

end Workload

end Cs342.Scheduler
