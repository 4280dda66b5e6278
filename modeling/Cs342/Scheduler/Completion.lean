import Cs342.Library.Progress
import Cs342.Scheduler.Conservation

/-!
# Every simulation ends

A CPU that polls an empty queue does nothing, and may do so for ever. Every other step is
one of finitely many: a burst is produced once, run as often as there is time remaining
at most, and a CPU passes through its loop once for each run. `State.work` counts the
steps that may still come. So a fair run comes to rest, and where nothing changes any
more every CPU has seen its marker.
-/

namespace Cs342.Scheduler

open Library

/-- At most how often a burst with so much time remaining is run. -/
def SchedProps.turns (p : SchedProps) (remainingTime : ℤ) : ℕ :=
  match p.alg with
  | .rr => max 1 remainingTime.toNat
  | .fcfs | .sjf => 1

namespace SchedProps

variable {p : SchedProps} {remaining : ℤ}

theorem turns_pos : 0 < p.turns remaining := by
  unfold turns
  split <;> omega

/-- A burst that is put back has one turn less. -/
theorem turns_sub_lt (hQ : 1 ≤ p.Q) (halg : p.alg = .rr) (hgt : remaining > p.Q) :
    p.turns (remaining - p.Q) < p.turns remaining := by
  simp only [turns, halg]
  omega

end SchedProps

namespace State

variable {p : SchedProps} {s t : State p} {a : Action p} {c : Fin p.N}

/-! ## What a state comes to -/

section Amount

/-- What counts how much. -/
structure Weights (M : Type*) where
  job : Job → M
  ready : BurstItem → M
  cpu : CpuState → M

variable {M : Type*} [AddCancelCommMonoid M] (W : Weights M)

/-- The sum over the bursts still to be produced, those in the ready queues and the CPUs. -/
def amount (s : State p) : M :=
  (s.todo.map W.job).sum + ∑ i, ((s.queues i).bursts.map W.ready).sum + ∑ c, W.cpu (s.cpus c)

theorem amount_setQueue (i : Fin p.queuesSize) (q : Queue) :
    (s.setQueue i q).amount W + ((s.queues i).bursts.map W.ready).sum =
      s.amount W + (q.bursts.map W.ready).sum := by
  have hsum := sum_update s.queues i q fun q => (q.bursts.map W.ready).sum
  simp only [amount, setQueue]
  rw [add_right_comm _ (∑ c, W.cpu (s.cpus c)), add_assoc (List.sum _), hsum]
  ac_rfl

theorem amount_setCpu (l : CpuState) :
    (s.setCpu c l).amount W + W.cpu (s.cpus c) = s.amount W + W.cpu l := by
  have hsum := sum_update s.cpus c l W.cpu
  simp only [amount, setCpu]
  rw [add_assoc, hsum, ← add_assoc]

theorem amount_enqueue {i : Fin p.queuesSize} {q : Queue} {b : BurstItem}
    (h : q.bursts = (s.queues i).bursts ++ [b]) :
    (s.setQueue i q).amount W = s.amount W + W.ready b := by
  have hset := amount_setQueue (s := s) W i q
  simp only [h, List.map_append, List.sum_append, List.map_cons, List.map_nil,
    List.sum_singleton] at hset
  refine add_right_cancel (hset.trans ?_)
  ac_rfl

theorem amount_dequeue {i : Fin p.queuesSize} {q : Queue} {b : BurstItem}
    {pre post : List BurstItem} (h : (s.queues i).bursts = pre ++ b :: post)
    (h' : q.bursts = pre ++ post) :
    (s.setQueue i q).amount W + W.ready b = s.amount W := by
  have hset := amount_setQueue (s := s) W i q
  simp only [h, h', List.map_append, List.sum_append, List.map_cons, List.sum_cons] at hset
  refine add_right_cancel (b := (pre.map W.ready).sum + (post.map W.ready).sum) (Eq.trans ?_ hset)
  ac_rfl

/-- The producer turns the next burst of the workload into one that is ready. -/
theorem Inv.amount_produce (h : s.Inv) {arrivalTime unset : ℤ} {seen : Seen p.queuesSize}
    (hact : s.act (.produce arrivalTime seen unset) = some t) :
    ∃ j b, b.job = j ∧ b.remainingTime = j.burstLength ∧ t.marked = s.marked ∧
      t.amount W + W.job j = s.amount W + W.ready b := by
  obtain ⟨j, todo, q, htodo, hbursts, rfl⟩ := h.produce_bursts hact
  refine ⟨j, p.mkBurst j arrivalTime (p.select s.queueZero s.rrQueueIdx seen) unset, rfl, rfl, rfl,
    ?_⟩
  rw [← amount_enqueue W hbursts]
  simp only [amount, State.setQueue, htodo, List.map_cons, List.sum_cons]
  ac_rfl

theorem Inv.amount_mark (h : s.Inv) (hact : s.act .mark = some t) :
    t.amount W = s.amount W := by
  obtain ⟨i, q, hbursts, rfl⟩ := h.mark_bursts hact
  have hset := amount_setQueue (s := s) W i q
  rw [hbursts] at hset
  exact add_right_cancel hset

/-- A CPU takes a burst out of its queue. -/
theorem Inv.amount_take (h : s.Inv) {b : BurstItem} {q : Queue} (hc : s.cpus c = .polling)
    (hsize : 0 < (s.queues (p.queue c)).size)
    (hmark : (s.queues (p.queue c)).atMarker = some false)
    (hpick : (s.queues (p.queue c)).pick p.alg = some (b, q)) :
    ((s.setQueue (p.queue c) q).setCpu c (.running b)).amount W + W.ready b +
      W.cpu .polling = s.amount W + W.cpu (.running b) := by
  obtain ⟨pre, post, hsplit, -, hbursts⟩ := (h.queues (p.queue c)).pick hsize hmark hpick
  have hset := amount_setCpu (s := s.setQueue (p.queue c) q) (c := c) W (.running b)
  have hc' : (s.setQueue (p.queue c) q).cpus c = .polling := hc
  rw [hc'] at hset
  rw [add_right_comm, hset, ← amount_dequeue W hsplit hbursts]
  ac_rfl

/-- A CPU puts what is left of a burst back. -/
theorem Inv.amount_requeue (h : s.Inv) {b b' : BurstItem} {q : Queue}
    (hc : s.cpus c = .running b) (hjob : b'.job = b.job)
    (hq : (s.queues (p.queue c)).enqueue b' = some q) :
    ((s.setQueue (p.queue c) q).setCpu c .top).amount W + W.cpu (.running b) =
      s.amount W + W.ready b' + W.cpu .top := by
  have hbursts := ((h.queues (p.queue c)).enqueue (h.pid_ne_of_running hc hjob) hq).2
  have hset := amount_setCpu (s := s.setQueue (p.queue c) q) (c := c) W .top
  have hc' : (s.setQueue (p.queue c) q).cpus c = .running b := hc
  rwa [hc', amount_enqueue W hbursts] at hset

/-- A CPU finishes a burst. -/
theorem amount_finish {b : BurstItem} {q : Queue} (hc : s.cpus c = .running b) :
    ((s.setFinished q).setCpu c .top).amount W + W.cpu (.running b) =
      s.amount W + W.cpu .top :=
  hc ▸ amount_setCpu (s := s.setFinished q) (c := c) W .top

end Amount

/-! ## The steps that may still come -/

def cpuWork (p : SchedProps) : CpuState → ℕ
  | .top => 2
  | .polling => 1
  | .running b => 3 * p.turns b.remainingTime
  | .exited => 0

def turnWeights (p : SchedProps) : Weights ℕ where
  job j := 3 * p.turns j.burstLength + 1
  ready b := 3 * p.turns b.remainingTime
  cpu := cpuWork p

def work (s : State p) : ℕ := p.queuesSize - s.marked + s.amount (turnWeights p)

theorem Inv.work_cpu (h : s.Inv) (hQ : p.alg = .rr → 1 ≤ p.Q) (st : CpuEffect s c t)
    (hne : t ≠ s) : t.work < s.work := by
  have hmarked := st.frame.2.1
  rw [work, work, hmarked]
  apply Nat.add_lt_add_left
  cases st with
  | poll idle =>
    rcases idle with ⟨hc, -⟩ | ⟨hc, -⟩
    · have := hc ▸ amount_setCpu (s := s) (c := c) (turnWeights p) .polling
      simp only [turnWeights, cpuWork] at this ⊢
      omega
    · refine absurd ?_ hne
      rw [State.setCpu, ← hc, Function.update_eq_self]
  | exit idle =>
    have := amount_setCpu (s := s) (c := c) (turnWeights p) .exited
    rcases idle with hc | hc <;> simp only [hc, turnWeights, cpuWork] at this ⊢ <;> omega
  | @take b q hc hsize hmark hpick =>
    have := h.amount_take (turnWeights p) hc hsize hmark hpick
    simp only [turnWeights, cpuWork] at this ⊢
    omega
  | @requeue b q hc hslice hq =>
    have hjob : ({ b with remainingTime := b.remainingTime - p.Q } : BurstItem).job = b.job := rfl
    have := h.amount_requeue (turnWeights p) hc hjob hq
    have hlt := SchedProps.turns_sub_lt (hQ hslice.1) hslice.1 hslice.2
    simp only [turnWeights, cpuWork] at this ⊢
    omega
  | @finish b b' q hc =>
    have := amount_finish (s := s) (q := q) (turnWeights p) hc
    have hpos : 0 < p.turns b.remainingTime := SchedProps.turns_pos
    simp only [turnWeights, cpuWork] at this ⊢
    omega

/-- Every step that changes the state takes one of the steps that may still come. -/
theorem Inv.work_lt (h : s.Inv) (hQ : p.alg = .rr → 1 ≤ p.Q) (hact : s.act a = some t)
    (hne : t ≠ s) : t.work < s.work := by
  cases a with
  | produce arrivalTime seen unset =>
    obtain ⟨j, b, hjob, hlength, hmarked, hamount⟩ := h.amount_produce
      (turnWeights p) hact
    simp only [turnWeights, hlength] at hamount
    simp only [work, turnWeights, hmarked]
    omega
  | mark =>
    have hamount := h.amount_mark (turnWeights p) hact
    obtain ⟨i, q, -, hi, -, rfl⟩ := mark_cases hact
    have := i.isLt
    rw [work, work, hamount]
    simp only
    omega
  | cpu c now => exact h.work_cpu hQ (cpu_effect hact) hne

end State

namespace Workload

variable {w : Workload} {s : State w.toSchedProps} {r : ℕ → State w.toSchedProps}

/-! ## At rest -/

theorem marked_le (h : w.system.Reachable s) : s.marked ≤ w.queuesSize := by
  refine h.invariant (I := fun s => s.marked ≤ w.queuesSize) (fun s h₀ => ?_) ?_
  · rw [h₀.2.2.2.2.1]
    exact Nat.zero_le _
  · rintro s t - hs ⟨a, ha⟩
    cases State.act_cases ha with
    | @mark i q _ hi => exact hi ▸ i.isLt
    | produce | poll | exit | take | requeue | finish => exact hs

/-- The producer can put a marker into the next queue. -/
theorem mark_isSome (h : w.system.Reachable s) (htodo : s.todo = [])
    (hmarked : s.marked < w.queuesSize) : (s.act .mark).isSome := by
  have hsound := (w.inv h).queues ⟨s.marked, hmarked⟩
  simp only [State.markerAt, lt_irrefl, if_false] at hsound
  obtain ⟨q0, hh⟩ := hsound
  obtain ⟨q, hq, -⟩ := hh.enqueue_marker (m := endMarker) rfl
  simp [State.act, State.mark, htodo, hmarked, hq]

/-- Where nothing changes any more, the producer is done and no CPU is in its loop. -/
theorem all_left_of_quiet (h : w.system.Reachable s) (hquiet : w.system.Quiet s) :
    s.todo = [] ∧ s.marked = w.queuesSize ∧ ∀ c, s.cpus c = .exited := by
  have hinv := w.inv h
  have htodo : s.todo = [] := by
    by_contra hne
    obtain ⟨t, ht⟩ := Option.isSome_iff_exists.mp
      (w.produce_isSome h hne 0 ⟨0, fun _ => 0, fun _ => 0⟩ 0)
    obtain ⟨j, todo, q, hcons, -, rfl⟩ := State.produce_cases ht
    have hsame := congrArg State.todo (hquiet _ ⟨_, ht⟩)
    simp [hcons] at hsame
  have hmarked : s.marked = w.queuesSize := by
    refine (marked_le h).antisymm (not_lt.mp fun hlt => ?_)
    obtain ⟨t, ht⟩ := Option.isSome_iff_exists.mp (mark_isSome h htodo hlt)
    obtain ⟨i, q, -, -, -, rfl⟩ := State.mark_cases ht
    exact Nat.succ_ne_self _ (congrArg State.marked (hquiet _ ⟨_, ht⟩))
  refine ⟨htodo, hmarked, fun c => ?_⟩
  by_contra hc
  obtain ⟨t, ht⟩ := Option.isSome_iff_exists.mp (w.cpu_isSome h hc 0)
  -- the step that CPU `c` takes leaves it where it was
  have hstay : t.cpus c = s.cpus c := by rw [hquiet t ⟨_, ht⟩]
  cases State.cpu_effect ht with
  | poll idle =>
    obtain ⟨hc, -⟩ | ⟨-, hsize⟩ := idle
    · simp [State.setCpu, hc] at hstay
    · -- its queue has a marker, so it is not empty
      have hi : (w.queue c).val < s.marked := by rw [hmarked]; exact (w.queue c).isLt
      have hsound := hinv.queues (w.queue c)
      rw [State.markerAt, if_pos hi] at hsound
      obtain ⟨q0, hh⟩ := hsound
      have := hh.size_eq
      simp at this
      omega
  | exit idle => rcases idle with hc | hc <;> simp [State.setCpu, hc] at hstay
  | take hc | requeue hc | finish hc => simp [State.setCpu, hc] at hstay

theorem quiet_of_all_left (htodo : s.todo = []) (hmarked : s.marked = w.queuesSize)
    (hcpus : ∀ c, s.cpus c = .exited) : w.system.Quiet s := by
  rintro t ⟨a, ha⟩
  cases a with
  | produce => simp [State.act, State.produce, htodo] at ha
  | mark => simp [State.act, State.mark, hmarked] at ha
  | cpu c now => simp [State.act, State.cpu, hcpus] at ha

/-- The simulation is over: the main thread can join the CPUs, and all bursts are finished. -/
structure Over (w : Workload) (s : State w.toSchedProps) : Prop where
  produced : s.todo = []
  marked : s.marked = w.queuesSize
  left : ∀ c, s.cpus c = .exited
  finished : (s.finishedQueue.items.map BurstItem.job).Perm w.jobs
  remaining : ∀ b ∈ s.finishedQueue.items, b.remainingTime = 0

theorem over_of_quiet (h : w.system.Reachable s) (hquiet : w.system.Quiet s) : w.Over s := by
  have hinv := w.inv h
  obtain ⟨htodo, hmarked, hleft⟩ := all_left_of_quiet h hquiet
  have hjobs : s.finishedQueue.jobs = (w.jobs : Multiset Job) := by
    have htotal := Ledger.total_of_reachable (w.ledger_reachable h)
    rw [w.total_eq_finished hinv hleft] at htotal
    simpa [State.ledger, htodo] using htotal
  refine ⟨htodo, hmarked, hleft, ?_, fun b hb => ?_⟩
  · rw [hinv.finished_items]
    exact Multiset.coe_eq_coe.mp hjobs
  · exact hinv.remaining b (hinv.finished_items ▸ hb)

/-- A fair run comes to rest, as each step takes something off the work that is left. -/
theorem eventually_over (h : w.system.Run r) (fair : w.system.Fair r) :
    ∃ n, ∀ m, n ≤ m → w.Over (r m) := by
  obtain ⟨n, hquiet, hrest⟩ := h.settles fair State.work fun s t hs ⟨a, ha⟩ hne =>
    (w.inv hs).work_lt w.Q_pos ha hne
  refine ⟨n, fun m hm => ?_⟩
  rw [hrest m hm]
  exact over_of_quiet (h.reachable n) hquiet

/-- Every fair run ends: from some moment on the producer is done, all CPUs have left their
loop, and every burst is in `finishedQueue`, run to the end. -/
theorem schedule_ends (h : w.system.Run r) (fair : w.system.Fair r) :
    ∃ n, ∀ m, n ≤ m → w.Over (r m) :=
  eventually_over h fair

/-- The two CPUs that share a queue. -/
theorem schedule_ends_pair :
    ∃ n, ∀ m, n ≤ m → pair.Over (System.trace State.act pair.start pairActions m) := by
  refine schedule_ends (System.run_trace pair.init_start _) (System.fair_trace ?_)
  exact quiet_of_all_left (by decide +kernel) (by decide +kernel) (by decide +kernel)

end Workload

end Cs342.Scheduler
