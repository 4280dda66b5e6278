import Cs342.Scheduler.Slices

/-!
# Waiting times

Arrival and finish of a burst are read as milliseconds since the start, by a division that
rounds toward zero. An instant whose microseconds within the second are below those of the
start is rounded up that way and any other one down. A burst that was rounded up when it
arrived and down when it finished seems to have taken up to a millisecond less than it
did, and its waiting time comes out as -1 if it has hardly waited.

A step takes place at an instant of the wall clock, in microseconds, which never goes
back. What a step reads of the clock it may have read before it took the lock. `usleep`
sleeps at least as long as it is asked to.
-/

namespace Cs342.Scheduler

open Library

/-! ## The clock -/

structure Timeval where
  tv_sec : ℤ
  tv_usec : ℤ
  usec_nonneg : 0 ≤ tv_usec
  usec_lt : tv_usec < 10 ^ 6

namespace Timeval

def micros (t : Timeval) : ℤ := 10 ^ 6 * t.tv_sec + t.tv_usec

end Timeval

def getTimeDiff (start cur : Timeval) : ℤ :=
  (cur.tv_sec - start.tv_sec) * 1000 + (cur.tv_usec - start.tv_usec).tdiv 1000

section

variable {start cur arrival finish : Timeval}

/-- Rounded down. -/
theorem getTimeDiff_of_le (h : start.tv_usec ≤ cur.tv_usec) :
    getTimeDiff start cur = (cur.micros - start.micros) / 1000 := by
  rw [getTimeDiff, Int.tdiv_eq_ediv_of_nonneg (by omega), Timeval.micros, Timeval.micros]
  omega

/-- Rounded up. -/
theorem getTimeDiff_of_lt (h : cur.tv_usec < start.tv_usec) :
    getTimeDiff start cur = -((start.micros - cur.micros) / 1000) := by
  have hneg : (cur.tv_usec - start.tv_usec).tdiv 1000 =
      -((start.tv_usec - cur.tv_usec) / 1000) := by
    rw [← Int.neg_sub, Int.neg_tdiv, Int.tdiv_eq_ediv_of_nonneg (by omega)]
  rw [getTimeDiff, hneg, Timeval.micros, Timeval.micros]
  omega

/-- The instants between which the difference lies. -/
theorem getTimeDiff_bounds : cur.micros - start.micros - 1000 < 1000 * getTimeDiff start cur ∧
    1000 * getTimeDiff start cur < cur.micros - start.micros + 1000 := by
  rcases lt_or_ge cur.tv_usec start.tv_usec with h | h
  · rw [getTimeDiff_of_lt h]
    omega
  · rw [getTimeDiff_of_le h]
    omega

theorem getTimeDiff_nonneg (h : start.micros ≤ cur.micros) : 0 ≤ getTimeDiff start cur := by
  have := (@getTimeDiff_bounds start cur).1
  rcases lt_or_ge cur.tv_usec start.tv_usec with hlt | hge
  · rw [getTimeDiff_of_lt hlt]
    omega
  · rw [getTimeDiff_of_le hge]
    omega

/-- Where the arrival is rounded up and the finish down, time is lost: the part of a millisecond
by which the arrival was rounded up is missing unless the burst took that much longer. -/
def NothingRoundedOff (start arrival finish : Timeval) (length : ℤ) : Prop :=
  arrival.tv_usec < start.tv_usec → start.tv_usec ≤ finish.tv_usec →
    1000 * length + (start.tv_usec - arrival.tv_usec) % 1000 ≤ finish.micros - arrival.micros

instance (start arrival finish : Timeval) (length : ℤ) :
    Decidable (NothingRoundedOff start arrival finish length) :=
  inferInstanceAs (Decidable (_ → _ → _))

/-- The time taken seems at least the length exactly when nothing is rounded off. -/
theorem length_le_getTimeDiff_iff {length : ℤ}
    (h : arrival.micros + 1000 * length ≤ finish.micros) :
    length ≤ getTimeDiff start finish - getTimeDiff start arrival ↔
      NothingRoundedOff start arrival finish length := by
  have hmod : (start.micros - arrival.micros) % 1000 =
      (start.tv_usec - arrival.tv_usec) % 1000 := by
    rw [Timeval.micros, Timeval.micros]
    omega
  unfold NothingRoundedOff
  rw [← hmod]
  rcases lt_or_ge arrival.tv_usec start.tv_usec with ha | ha <;>
    rcases lt_or_ge finish.tv_usec start.tv_usec with hf | hf
  · rw [getTimeDiff_of_lt ha, getTimeDiff_of_lt hf]
    omega
  · rw [getTimeDiff_of_lt ha, getTimeDiff_of_le hf]
    omega
  · rw [getTimeDiff_of_le ha, getTimeDiff_of_lt hf]
    omega
  · rw [getTimeDiff_of_le ha, getTimeDiff_of_le hf]
    omega

end

/-! ## Runs against the clock -/

/-- A state, the instant of the last step, and what is read of the clock where the source does
not keep it: the arrival of each burst, by pid, and since when each CPU has had its burst. -/
structure Clocked (p : SchedProps) where
  state : State p
  clock : ℤ
  arrived : ℤ → Timeval
  since : Fin p.N → ℤ

/-- The step that takes place at the instant `now`. Of the clock it has read `read`. -/
inductive TimedAction (p : SchedProps) where
  | produce (read : Timeval) (now : ℤ) (seen : Seen p.queuesSize) (unset : ℤ)
  | mark (now : ℤ)
  | cpu (cpuIdx : Fin p.N) (read : Timeval) (now : ℤ)

namespace Clocked

variable {p : SchedProps}

/-- A CPU that runs a burst reads the clock when it has slept. -/
def Awake (s : Clocked p) (c : Fin p.N) (read : Timeval) (now : ℤ) : Prop :=
  match s.state.cpus c with
  | .running burst => s.since c + usleepArg (p.execTime burst) ≤ read.micros ∧ read.micros ≤ now
  | _ => True

instance (s : Clocked p) (c : Fin p.N) (read : Timeval) (now : ℤ) :
    Decidable (s.Awake c read now) :=
  match h : s.state.cpus c with
  | .running _ => decidable_of_iff (_ ∧ _) (by simp only [Awake, h]; exact .rfl)
  | .top | .polling | .exited => isTrue (by simp [Awake, h])

def act (start : Timeval) (s : Clocked p) : TimedAction p → Option (Clocked p)
  | .produce read now seen unset =>
    if s.clock ≤ now ∧ start.micros ≤ read.micros ∧ read.micros ≤ now then do
      let j ← s.state.todo.head?
      let state ← s.state.act (.produce (toInt (getTimeDiff start read)) seen unset)
      some { s with state, clock := now, arrived := Function.update s.arrived j.pid read }
    else none
  | .mark now =>
    if s.clock ≤ now then
      (s.state.act .mark).map fun state => { s with state, clock := now }
    else none
  | .cpu c read now =>
    if s.clock ≤ now ∧ s.Awake c read now then
      (s.state.act (.cpu c (toInt (getTimeDiff start read)))).map fun state =>
        { s with state, clock := now, since := Function.update s.since c now }
    else none

/-- The burst that a step finishes. -/
def finishes (s : Clocked p) : TimedAction p → Option (BurstItem × Timeval)
  | .cpu c read _ =>
    match s.state.cpus c with
    | .running b => if p.alg = .rr ∧ b.remainingTime > p.Q then none else some (b, read)
    | _ => none
  | _ => none

/-- A burst is finished before the milliseconds since the start are too many for an `int`. -/
def InRange (start : Timeval) (s : Clocked p) (a : TimedAction p) : Prop :=
  ∀ b read, s.finishes a = some (b, read) → getTimeDiff start read < 2 ^ 31

/-- A burst that is finished loses nothing in rounding. -/
def InPhase (start : Timeval) (s : Clocked p) (a : TimedAction p) : Prop :=
  ∀ b read, s.finishes a = some (b, read) →
    NothingRoundedOff start (s.arrived b.pid) read b.burstLength

/-- No burst that is finished seems to have taken less than its length. -/
def NeverNegative (s : Clocked p) : Prop :=
  ∀ b ∈ s.state.finishedQueue.items, 0 ≤ b.turnaroundTime - b.burstLength

end Clocked

namespace Clocked

variable {p : SchedProps} {s : Clocked p} {a : TimedAction p} {b : BurstItem} {read : Timeval}

theorem produce_cases {start : Timeval} {t : Clocked p} {now unset : ℤ} {seen : Seen p.queuesSize}
    (h : s.act start (.produce read now seen unset) = some t) :
    (s.clock ≤ now ∧ start.micros ≤ read.micros ∧ read.micros ≤ now) ∧
      ∃ j todo state, s.state.todo = j :: todo ∧
        s.state.act (.produce (toInt (getTimeDiff start read)) seen unset) = some state ∧
        t = ⟨state, now, Function.update s.arrived j.pid read, s.since⟩ := by
  simp only [act] at h
  split_ifs at h with hnow
  simp only [Option.bind_eq_bind, Option.bind_eq_some_iff, Option.some.injEq] at h
  obtain ⟨j, hj, state, hstate, rfl⟩ := h
  obtain ⟨todo, htodo⟩ := List.head?_eq_some_iff.mp hj
  exact ⟨hnow, j, todo, state, htodo, hstate, rfl⟩

theorem mark_cases {start : Timeval} {t : Clocked p} {now : ℤ}
    (h : s.act start (.mark now) = some t) :
    s.clock ≤ now ∧ ∃ state, s.state.act .mark = some state ∧
      t = ⟨state, now, s.arrived, s.since⟩ := by
  simp only [act] at h
  split_ifs at h with hnow
  obtain ⟨state, hstate, rfl⟩ := Option.map_eq_some_iff.mp h
  exact ⟨hnow, state, hstate, rfl⟩

theorem cpu_cases {start : Timeval} {t : Clocked p} {c : Fin p.N} {now : ℤ}
    (h : s.act start (.cpu c read now) = some t) :
    (s.clock ≤ now ∧ s.Awake c read now) ∧
      ∃ state, s.state.act (.cpu c (toInt (getTimeDiff start read))) = some state ∧
        t = ⟨state, now, s.arrived, Function.update s.since c now⟩ := by
  simp only [act] at h
  split_ifs at h with hnow
  obtain ⟨state, hstate, rfl⟩ := Option.map_eq_some_iff.mp h
  exact ⟨hnow, state, hstate, rfl⟩

theorem finishes_eq_some_iff : s.finishes a = some (b, read) ↔
    ∃ c now, a = .cpu c read now ∧ s.state.cpus c = .running b ∧
      ¬ (p.alg = .rr ∧ b.remainingTime > p.Q) := by
  constructor
  · intro h
    cases a with
    | produce | mark => simp [finishes] at h
    | cpu c r now =>
      cases hc : s.state.cpus c with
      | top | polling | exited => simp [finishes, hc] at h
      | running b' =>
        simp only [finishes, hc] at h
        split_ifs at h with hslice
        obtain ⟨rfl, rfl⟩ : b' = b ∧ r = read := by simpa using h
        exact ⟨c, now, rfl, hc, hslice⟩
  · rintro ⟨c, now, rfl, hc, hlast⟩
    simp only [finishes, hc, if_neg hlast]

theorem inRange_of_lt {start : Timeval}
    (h : ∀ c read now, a = .cpu c read now → getTimeDiff start read < 2 ^ 31) :
    s.InRange start a := by
  intro b read hb
  obtain ⟨c, now, ha, -⟩ := finishes_eq_some_iff.mp hb
  exact h c read now ha

/-- Nothing is rounded up when the start is on the full second. -/
theorem inPhase_of_usec_eq_zero {start : Timeval} (h : start.tv_usec = 0) :
    s.InPhase start a := by
  intro b read _ hlt
  have := (s.arrived b.pid).usec_nonneg
  omega

end Clocked

/-! ## What one step does -/

/-- The burst as it is put into `finishedQueue`. -/
def BurstItem.finish (b : BurstItem) (cpuIdx : ℕ) (now : ℤ) : BurstItem :=
  { b with
    remainingTime := 0, processorId := cpuIdx, finishTime := now
    turnaroundTime := now - b.arrivalTime }

namespace State

variable {p : SchedProps} {s t : State p} {c : Fin p.N} {b : BurstItem} {now : ℤ}

theorem Inv.finish_bursts (h : s.Inv) (hc : s.cpus c = .running b)
    (hlast : ¬ (p.alg = .rr ∧ b.remainingTime > p.Q)) (hact : s.act (.cpu c now) = some t) :
    ∃ q, q.bursts = s.finishedQueue.bursts ++ [b.finish c now] ∧
      t = (s.setFinished q).setCpu c .top := by
  simp only [act, cpu, hc, complete, if_neg hlast, Option.map_eq_some_iff] at hact
  obtain ⟨q, hq, rfl⟩ := hact
  have hpid : (b.finish c now).pid ≠ -1 := h.pid_ne_of_running hc rfl
  exact ⟨q, (h.finished.enqueue hpid hq).2, rfl⟩

end State

namespace Clocked

variable {p : SchedProps} {start : Timeval} {s t : Clocked p} {a : TimedAction p}

/-- How far a burst that arrived at the instant `arrived` has got by `now`. -/
structure Progress (start arrived : Timeval) (now : ℤ) (b : BurstItem) : Prop where
  remaining : 0 ≤ b.remainingTime
  executed : b.remainingTime ≤ b.burstLength
  since_start : start.micros ≤ arrived.micros
  arrival : b.arrivalTime = toInt (getTimeDiff start arrived)
  elapsed : arrived.micros + 1000 * (b.burstLength - b.remainingTime) ≤ now

theorem Progress.mono {arrived : Timeval} {now now' : ℤ} {b : BurstItem}
    (h : Progress start arrived now b) (hnow : now ≤ now') : Progress start arrived now' b :=
  { h with elapsed := h.elapsed.trans hnow }

/-- Up to when a place has certainly had its bursts. -/
def Placed (start : Timeval) (s : Clocked p) : Place p → BurstItem → Prop
  | .ready _, b => Progress start (s.arrived b.pid) s.clock b
  | .hands c, b => Progress start (s.arrived b.pid) (s.since c) b
  | .finished, _ => True

theorem Placed.setClock {pl : Place p} {b : BurstItem} {state : State p} {now : ℤ}
    {since : Fin p.N → ℤ} (h : s.Placed start pl b) (hnow : s.clock ≤ now)
    (hsince : ∀ c, pl = .hands c → since c = s.since c) :
    (⟨state, now, s.arrived, since⟩ : Clocked p).Placed start pl b := by
  cases pl with
  | ready i => exact Progress.mono h hnow
  | hands c =>
    have : since c = s.since c := hsince c rfl
    simpa only [Placed, this] using h
  | finished => trivial

/-- A burst is executed for a quantum, or for at least all that remains. -/
theorem execTime_bounds {b : BurstItem} (hremaining : 0 ≤ b.remainingTime)
    (hexecuted : b.remainingTime ≤ b.burstLength) (hQ : p.alg = .rr → 1 ≤ p.Q) :
    0 ≤ p.execTime b ∧ p.execTime b ≤ b.burstLength ∧
      (p.alg = .rr ∧ b.remainingTime > p.Q ∧ p.execTime b = p.Q ∨
        ¬ (p.alg = .rr ∧ b.remainingTime > p.Q) ∧ b.remainingTime ≤ p.execTime b) := by
  cases halg : p.alg with
  | fcfs => simp [SchedProps.execTime, halg]; omega
  | sjf => simp [SchedProps.execTime, halg]; omega
  | rr =>
    have := hQ halg
    by_cases hgt : b.remainingTime > p.Q
    · simp [SchedProps.execTime, halg, hgt]; omega
    · simp [SchedProps.execTime, halg, hgt]; omega

end Clocked

namespace Workload

variable {w : Workload} {start : Timeval} {s t : Clocked w.toSchedProps}
  {a : TimedAction w.toSchedProps}

/-- The invariant: no burst has been where it is for longer than it took to get there. -/
structure Punctual (start : Timeval) (s : Clocked w.toSchedProps) : Prop where
  reachable : w.system.Reachable s.state
  placed : ∀ pl, ∀ b ∈ s.state.burstsAt pl, s.Placed start pl b

/-- What is produced has arrived just now. -/
theorem Punctual.produce (hlengths : ∀ j ∈ w.jobs, 1 ≤ j.burstLength)
    (h : w.Punctual start s) {read : Timeval} {now unset : ℤ} {seen : Seen w.queuesSize}
    (hact : s.act start (.produce read now seen unset) = some t) : w.Punctual start t := by
  obtain ⟨⟨hclock, hstart, hread⟩, j, todo, state, htodo, hstate, rfl⟩ :=
    Clocked.produce_cases hact
  refine ⟨h.reachable.next ⟨_, hstate⟩, ?_⟩
  obtain ⟨j', todo', q, htodo', hbursts, rfl⟩ := (w.inv h.reachable).produce_bursts hstate
  obtain ⟨rfl, rfl⟩ := List.cons.inj (htodo.symm.trans htodo')
  have hpending : j ∈ s.state.todo := by simp [htodo]
  -- the bursts that are there already have other pids
  have hold (pl : Place w.toSchedProps) (b : BurstItem) (hb : b ∈ s.state.burstsAt pl) :
      (⟨s.state, now, Function.update s.arrived j.pid read, s.since⟩ : Clocked _).Placed
        start pl b := by
    have hpid := (pid_ne h.reachable hb).2 j hpending
    have hmoved : (⟨s.state, now, s.arrived, s.since⟩ : Clocked _).Placed start pl b :=
      (h.placed pl b hb).setClock hclock fun _ _ => rfl
    cases pl with
    | ready | hands => simpa [Clocked.Placed, Function.update_of_ne hpid.symm] using hmoved
    | finished => trivial
  refine State.forall_burstsAt_setQueue (fun b hb => ?_) hold
  rcases List.mem_append.mp (hbursts ▸ hb) with hb | hb
  · exact hold (.ready _) b hb
  · obtain rfl := List.mem_singleton.mp hb
    have hlength := hlengths j (todo_mem h.reachable hpending)
    refine ⟨?_, ?_, ?_, ?_, ?_⟩ <;> simp [SchedProps.mkBurst]
    all_goals omega

/-- A marker only lets time pass. -/
theorem Punctual.mark (h : w.Punctual start s) {now : ℤ}
    (hact : s.act start (.mark now) = some t) : w.Punctual start t := by
  obtain ⟨hclock, state, hstate, rfl⟩ := Clocked.mark_cases hact
  refine ⟨h.reachable.next ⟨_, hstate⟩, ?_⟩
  obtain ⟨i, q, hbursts, rfl⟩ := (w.inv h.reachable).mark_bursts hstate
  have hold (pl : Place w.toSchedProps) (b : BurstItem) (hb : b ∈ s.state.burstsAt pl) :
      (⟨s.state, now, s.arrived, s.since⟩ : Clocked _).Placed start pl b :=
    (h.placed pl b hb).setClock hclock fun _ _ => rfl
  refine State.forall_burstsAt_setQueue (fun b hb => ?_) hold
  exact hold (.ready i) b (by rwa [State.burstsAt, ← hbursts])

/-- A CPU has slept for as long as it executes the burst. -/
theorem Punctual.slept (hlengths : ∀ j ∈ w.jobs, 1 ≤ j.burstLength ∧ 1000 * j.burstLength < 2 ^ 32)
    (h : w.Punctual start s) {c : Fin w.N} {b : BurstItem} (hc : s.state.cpus c = .running b)
    {read : Timeval} {now : ℤ} (hawake : s.Awake c read now) :
    Clocked.Progress start (s.arrived b.pid) (s.since c) b ∧
      s.since c + 1000 * w.execTime b ≤ read.micros ∧ read.micros ≤ now ∧
      (w.alg = .rr ∧ b.remainingTime > w.Q ∧ w.execTime b = w.Q ∨
        ¬ (w.alg = .rr ∧ b.remainingTime > w.Q) ∧ b.remainingTime ≤ w.execTime b) := by
  have hheld := State.mem_burstsAt_hands hc
  have hprogress : Clocked.Progress start (s.arrived b.pid) (s.since c) b :=
    h.placed (.hands c) b hheld
  obtain ⟨-, hshort⟩ := hlengths b.job (job_mem h.reachable hheld)
  have hlength : b.job.burstLength = b.burstLength := rfl
  obtain ⟨hnonneg, hle, hcases⟩ :=
    Clocked.execTime_bounds hprogress.remaining hprogress.executed w.Q_pos
  simp only [Clocked.Awake, hc] at hawake
  rw [usleepArg_eq hnonneg (by omega)] at hawake
  exact ⟨hprogress, hawake.1, hawake.2, hcases⟩

theorem Punctual.cpu (hlengths : ∀ j ∈ w.jobs, 1 ≤ j.burstLength ∧ 1000 * j.burstLength < 2 ^ 32)
    (h : w.Punctual start s) {c : Fin w.N} {read : Timeval} {now : ℤ}
    (hact : s.act start (.cpu c read now) = some t) : w.Punctual start t := by
  obtain ⟨⟨hclock, hawake⟩, state, hstate, rfl⟩ := Clocked.cpu_cases hact
  refine ⟨h.reachable.next ⟨_, hstate⟩, ?_⟩
  have hinv := w.inv h.reachable
  have hold (pl : Place w.toSchedProps) (b : BurstItem) (hb : b ∈ s.state.burstsAt pl)
      (hpl : pl ≠ .hands c) :
      (⟨s.state, now, s.arrived, Function.update s.since c now⟩ : Clocked _).Placed start pl b :=
    (h.placed pl b hb).setClock hclock fun d hd =>
      Function.update_of_ne (fun hdc => hpl (by rw [hd, hdc])) _ _
  cases State.cpu_effect hstate with
  | poll | exit => exact State.forall_burstsAt_setCpu (by simp [CpuState.bursts]) hold
  | @take b q hc hsize hmark hpick =>
    obtain ⟨pre, post, hsplit, -, hbursts⟩ := (hinv.queues (w.queue c)).pick hsize hmark hpick
    have hready (y : BurstItem) (hy : y ∈ pre ++ b :: post) :
        Clocked.Progress start (s.arrived y.pid) now y :=
      hold (.ready (w.queue c)) y (by rwa [State.burstsAt, hsplit]) (by simp)
    refine State.forall_burstsAt_setCpu ?_ ?_
    · intro y hy
      obtain rfl := List.mem_singleton.mp hy
      simpa [Clocked.Placed] using hready y (by simp)
    · refine State.forall_burstsAt_setQueue (fun y hy _ => ?_) hold
      exact hready y (by grind)
  | @requeue b q hc hslice hq =>
    obtain ⟨hprogress, hslept, hread, hcases⟩ := h.slept hlengths hc hawake
    obtain ⟨-, -, hexec⟩ := hcases.resolve_right fun hlast => hlast.1 hslice
    have hpid : ({ b with remainingTime := b.remainingTime - w.Q } : BurstItem).pid ≠ -1 :=
      hinv.hands c b hc
    obtain ⟨-, hbursts⟩ := (hinv.queues (w.queue c)).enqueue hpid hq
    refine State.forall_burstsAt_setCpu (by simp [CpuState.bursts]) ?_
    refine State.forall_burstsAt_setQueue (fun y hy hpl => ?_) hold
    rcases List.mem_append.mp (hbursts ▸ hy) with hy | hy
    · exact hold (.ready (w.queue c)) y hy hpl
    · rw [List.mem_singleton.mp hy]
      have hQ := w.Q_pos hslice.1
      have hexecuted := hprogress.executed
      have helapsed := hprogress.elapsed
      exact {
        remaining := by simp only; omega
        executed := by simp only; omega
        since_start := hprogress.since_start
        arrival := hprogress.arrival
        elapsed := by simp only; omega }
  | finish =>
    refine State.forall_burstsAt_setCpu (by simp [CpuState.bursts]) ?_
    exact State.forall_burstsAt_setFinished (fun y hy _ => trivial) hold

theorem Punctual.step (hlengths : ∀ j ∈ w.jobs, 1 ≤ j.burstLength ∧ 1000 * j.burstLength < 2 ^ 32)
    (h : w.Punctual start s) (hact : s.act start a = some t) : w.Punctual start t := by
  cases a with
  | produce read now seen unset => exact h.produce (fun j hj => (hlengths j hj).1) hact
  | mark now => exact h.mark hact
  | cpu c read now => exact h.cpu hlengths hact

/-- A step that finishes no burst leaves `finishedQueue` alone. -/
theorem finishedQueue_eq (hact : s.act start a = some t) (hnone : s.finishes a = none) :
    t.state.finishedQueue = s.state.finishedQueue := by
  cases a with
  | produce read now seen unset =>
    obtain ⟨-, j, todo, state, -, hstate, rfl⟩ := Clocked.produce_cases hact
    obtain ⟨j', todo', q, -, -, rfl⟩ := State.produce_cases hstate
    rfl
  | mark now =>
    obtain ⟨-, state, hstate, rfl⟩ := Clocked.mark_cases hact
    obtain ⟨i, q, -, -, -, rfl⟩ := State.mark_cases hstate
    rfl
  | cpu c read now =>
    obtain ⟨-, state, hstate, rfl⟩ := Clocked.cpu_cases hact
    cases State.cpu_effect hstate with
    | poll | exit | take | requeue => rfl
    | finish running last =>
      rw [Clocked.finishes_eq_some_iff.mpr ⟨c, now, rfl, running, last⟩] at hnone
      cases hnone

/-- The turnaround time that a step computes is long enough exactly when it loses nothing. -/
theorem Punctual.turnaround_iff
    (hlengths : ∀ j ∈ w.jobs, 1 ≤ j.burstLength ∧ 1000 * j.burstLength < 2 ^ 32)
    (h : w.Punctual start s) {c : Fin w.N} {b : BurstItem} (hc : s.state.cpus c = .running b)
    (hlast : ¬ (w.alg = .rr ∧ b.remainingTime > w.Q)) {read : Timeval} {now : ℤ}
    (hawake : s.Awake c read now) (hrange : getTimeDiff start read < 2 ^ 31) :
    b.burstLength ≤ toInt (getTimeDiff start read) - b.arrivalTime ↔
      NothingRoundedOff start (s.arrived b.pid) read b.burstLength := by
  obtain ⟨hprogress, hslept, -, hcases⟩ := h.slept hlengths hc hawake
  obtain ⟨-, hexec⟩ := hcases.resolve_left fun hslice => hlast ⟨hslice.1, hslice.2.1⟩
  have helapsed := hprogress.elapsed
  have hstart := hprogress.since_start
  have hlength : 1 ≤ b.burstLength :=
    (hlengths b.job (job_mem h.reachable (State.mem_burstsAt_hands hc))).1
  have htaken : (s.arrived b.pid).micros + 1000 * b.burstLength ≤ read.micros := by omega
  -- the arrival is in the range of an int if the finish is
  have harrival := getTimeDiff_nonneg hstart
  have hfinish := @getTimeDiff_nonneg start read (by omega)
  have hbounds := @getTimeDiff_bounds start (s.arrived b.pid)
  have hbounds' := @getTimeDiff_bounds start read
  rw [hprogress.arrival, toInt_eq (by omega) hrange, toInt_eq (by omega) (by omega)]
  exact length_le_getTimeDiff_iff htaken

theorem Punctual.neverNegative_iff
    (hlengths : ∀ j ∈ w.jobs, 1 ≤ j.burstLength ∧ 1000 * j.burstLength < 2 ^ 32)
    (h : w.Punctual start s) (hs : s.NeverNegative) (hrange : s.InRange start a)
    (hact : s.act start a = some t) : t.NeverNegative ↔ s.InPhase start a := by
  cases hfinishes : s.finishes a with
  | none =>
    refine iff_of_true ?_ fun b read hb => ?_
    · rwa [Clocked.NeverNegative, finishedQueue_eq hact hfinishes]
    · rw [hfinishes] at hb
      cases hb
  | some x =>
    obtain ⟨b, read⟩ := x
    obtain ⟨c, now, rfl, hc, hlast⟩ := Clocked.finishes_eq_some_iff.mp hfinishes
    obtain ⟨⟨-, hawake⟩, state, hstate, rfl⟩ := Clocked.cpu_cases hact
    have hinv := w.inv h.reachable
    have hinv' := w.inv (h.reachable.next ⟨_, hstate⟩)
    obtain ⟨q, hbursts, rfl⟩ := hinv.finish_bursts hc hlast hstate
    have hitems' : q.items = q.bursts := hinv'.finished_items
    have hturnaround := h.turnaround_iff hlengths hc hlast hawake (hrange b read hfinishes)
    calc _ ↔ ∀ x ∈ q.items, 0 ≤ x.turnaroundTime - x.burstLength := .rfl
      _ ↔ 0 ≤ toInt (getTimeDiff start read) - b.arrivalTime - b.burstLength := by
        rw [hitems', hbursts, List.forall_mem_append, ← hinv.finished_items]
        exact (and_iff_right hs).trans (by simp [BurstItem.finish])
      _ ↔ NothingRoundedOff start (s.arrived b.pid) read b.burstLength := by
        rw [← hturnaround]
        omega
      _ ↔ _ := by
        simp only [Clocked.InPhase, hfinishes, Option.some.injEq, Prod.mk.injEq]
        grind

/-! ## Whole runs -/

variable {s₀ : Clocked w.toSchedProps} {as : List (TimedAction w.toSchedProps)}

theorem punctual_start (h₀ : w.init s₀.state) : w.Punctual start s₀ := by
  refine ⟨.start h₀, fun pl b hb => ?_⟩
  simp [burstsAt_init h₀] at hb

/-- In a run that finishes its bursts while the milliseconds since the start fit in an `int`,
no waiting time is ever negative if and only if no burst loses in rounding what it waited. -/
theorem waiting_never_negative_iff
    (hlengths : ∀ j ∈ w.jobs, 1 ≤ j.burstLength ∧ 1000 * j.burstLength < 2 ^ 32)
    (h₀ : w.init s₀.state)
    (hrange : System.Meets (Clocked.act start) (Clocked.InRange start) s₀ as) :
    System.Always (Clocked.act start) Clocked.NeverNegative s₀ as ↔
      System.Meets (Clocked.act start) (Clocked.InPhase start) s₀ as := by
  have hnone : s₀.NeverNegative := by
    obtain ⟨load, hfinished⟩ := h₀.2.1
    intro b hb
    rw [hfinished] at hb
    cases hb
  rw [System.Meets.always_iff (I := w.Punctual start) hrange (punctual_start h₀)
    (fun s a t h _ ht => h.step hlengths ht)
    fun s a t h hs ha ht => h.neverNegative_iff hlengths hs ha ht]
  exact and_iff_right hnone

/-! ## A burst that is done in no time -/

def halfPast : Timeval := ⟨0, 500000, by decide, by decide⟩

/-- Burst 2 of length 1 arrives half a millisecond before the second of the start is over, and
is finished half a millisecond after. -/
def hastyActions : List (TimedAction pair.toSchedProps) :=
  let seen : Seen pair.queuesSize := ⟨0, fun _ => 0, fun _ => 0⟩
  let cpu0 : Fin 2 := Fin.rev (Fin.last 1)
  let cpu1 : Fin 2 := Fin.last 1
  let arrival : Timeval := ⟨1, 499500, by decide, by decide⟩
  let finish : Timeval := ⟨1, 500500, by decide, by decide⟩
  [.produce halfPast 500000 seen 0, .cpu cpu0 halfPast 500000, .cpu cpu0 halfPast 500000,
   .produce arrival 1499500 seen 0, .cpu cpu1 arrival 1499500, .cpu cpu1 arrival 1499500,
   .cpu cpu1 finish 1500500]

def clockedPair : Clocked pair.toSchedProps := ⟨pair.start, 0, fun _ => halfPast, fun _ => 0⟩

def hastyEnd : Clocked pair.toSchedProps :=
  (System.perform (Clocked.act halfPast) hastyActions clockedPair).get (by decide +kernel)

def onTheSecond : Timeval := ⟨0, 0, by decide, by decide⟩

theorem waiting_never_negative_onTheSecond :
    System.Always (Clocked.act onTheSecond) Clocked.NeverNegative clockedPair hastyActions := by
  refine (waiting_never_negative_iff (by decide)
    ⟨fun _ => ⟨0, rfl⟩, ⟨0, rfl⟩, rfl, rfl, rfl, fun _ => rfl⟩ (.of_mem (fun a ha s => ?_) _)).mpr
    (.of_mem (fun a _ s => Clocked.inPhase_of_usec_eq_zero rfl) _)
  refine Clocked.inRange_of_lt fun c read now hcpu => ?_
  subst hcpu
  simp only [hastyActions, List.mem_cons, List.not_mem_nil, or_false, reduceCtorEq,
    false_or] at ha
  rcases ha with ⟨-, rfl, -⟩ | ⟨-, rfl, -⟩ | ⟨-, rfl, -⟩ | ⟨-, rfl, -⟩ | ⟨-, rfl, -⟩ <;> decide

theorem waiting_negative_hasty :
    pair.init clockedPair.state ∧
      (∀ j ∈ pair.jobs, 1 ≤ j.burstLength ∧ 1000 * j.burstLength < 2 ^ 32) ∧
      System.perform (Clocked.act halfPast) hastyActions clockedPair = some hastyEnd ∧
      hastyEnd.state.finishedQueue.items.map
        (fun b => (b.pid, b.burstLength, b.turnaroundTime)) = [(2, 1, 0)] ∧
      ¬ System.Always (Clocked.act halfPast) Clocked.NeverNegative clockedPair hastyActions := by
  have hend : System.perform (Clocked.act halfPast) hastyActions clockedPair = some hastyEnd :=
    (Option.some_get _).symm
  refine ⟨⟨fun _ => ⟨0, rfl⟩, ⟨0, rfl⟩, rfl, rfl, rfl, fun _ => rfl⟩, by decide, hend,
    by decide +kernel, fun h => ?_⟩
  have hlast : hastyEnd.NeverNegative := h.of_perform hend
  have hnegative : ¬ ∀ b ∈ hastyEnd.state.finishedQueue.items,
      0 ≤ b.turnaroundTime - b.burstLength := by decide +kernel
  exact hnegative hlast

end Workload

end Cs342.Scheduler
