import Mathlib.Data.Fintype.Sum
import Mathlib.Tactic.DeriveFintype
import Cs342.Library.Ledger
import Cs342.Scheduler.Cpu

/-!
# No burst is lost or run twice

Runs of the scheduler refine a ledger whose places are the ready queues, the hands
of the CPUs and `finishedQueue`. That no burst stays behind in the end rests on the
marker: a CPU leaves its loop only at a queue with nothing but the marker, and one
that still holds a burst has not left, so a burst it puts back has a CPU to run it.
-/

namespace Cs342.Scheduler

open Library

/-! ## What a queue holds, read off the queue -/

namespace Queue

/-- The bursts in the queue, without its marker. -/
def bursts (q : Queue) : List BurstItem := q.items.filter fun b => b.pid ≠ -1

/-- A well-formed queue with this marker. -/
def Sound (q : Queue) (marker : Option BurstItem) : Prop := ∃ q0, q.Holds q0 q.bursts marker

variable {q q' : Queue} {q0 : ℤ} {bs : List BurstItem} {b : BurstItem} {marker : Option BurstItem}

theorem Holds.bursts_eq (h : q.Holds q0 bs marker) : q.bursts = bs := by
  have hbs : bs.filter (fun b => b.pid ≠ -1) = bs :=
    List.filter_eq_self.mpr fun b hb => by simpa using h.bursts_pid b hb
  have hm : marker.toList.filter (fun b => b.pid ≠ -1) = [] := by
    cases marker with
    | none => rfl
    | some m => simp [h.marker_pid m rfl]
  rw [bursts, h.items_eq, List.filter_append, hbs, hm, List.append_nil]

theorem Holds.sound (h : q.Holds q0 bs marker) : q.Sound marker ∧ q.bursts = bs :=
  ⟨⟨q0, h.bursts_eq.symm ▸ h⟩, h.bursts_eq⟩

theorem sound_empty (load : ℤ) :
    (Queue.empty load).Sound none ∧ (Queue.empty load).bursts = [] := by
  have h : (Queue.empty load).Holds load [] none := by
    refine ⟨⟨[], ⟨trivial, ?_, rfl, rfl, ?_, rfl, ?_⟩, rfl⟩, ?_, ?_⟩ <;> simp [Queue.empty]
  exact h.sound

theorem Sound.items_eq (h : q.Sound marker) : q.items = q.bursts ++ marker.toList :=
  h.choose_spec.items_eq

theorem Sound.pid_ne (h : q.Sound marker) : ∀ b ∈ q.bursts, b.pid ≠ -1 := h.choose_spec.bursts_pid

theorem Sound.atMarker_eq (h : q.Sound marker) :
    q.atMarker = some (decide (q.bursts = [] ∧ marker ≠ none)) := h.choose_spec.atMarker_eq

theorem Sound.exists_enqueue (h : q.Sound marker) (hb : b.pid ≠ -1) :
    ∃ q', q.enqueue b = some q' := by
  obtain ⟨_, h⟩ := h
  obtain ⟨q', hq, -⟩ := h.enqueue hb
  exact ⟨q', hq⟩

theorem Sound.enqueue (h : q.Sound marker) (hb : b.pid ≠ -1) (henq : q.enqueue b = some q') :
    q'.Sound marker ∧ q'.bursts = q.bursts ++ [b] := by
  obtain ⟨_, h⟩ := h
  obtain ⟨_, hq, hh⟩ := h.enqueue hb
  exact Option.some.inj (hq.symm.trans henq) ▸ hh.sound

theorem Sound.enqueue_marker (h : q.Sound none) (henq : q.enqueue endMarker = some q') :
    q'.Sound (some endMarker) ∧ q'.bursts = q.bursts := by
  obtain ⟨_, h⟩ := h
  obtain ⟨_, hq, hh⟩ := h.enqueue_marker (m := endMarker) rfl
  exact Option.some.inj (hq.symm.trans henq) ▸ hh.sound

/-- A CPU that polls a non-empty queue and does not see the marker takes a burst. -/
theorem Sound.exists_pick (h : q.Sound marker) (hsize : 0 < q.size)
    (hmark : q.atMarker = some false) (alg : SchedulingAlgorithm) :
    ∃ pre x post q', q.bursts = pre ++ x :: post ∧ q.pick alg = some (x, q') ∧
      q'.Sound marker ∧ q'.bursts = pre ++ post := by
  obtain ⟨q0, h⟩ := h
  rcases hbs : q.bursts with _ | ⟨b, bs⟩
  · rw [h.atMarker_eq] at hmark
    have := h.size_eq
    cases marker <;> simp_all
  · rw [hbs] at h
    obtain ⟨pre, x, post, q', hsplit, hq, hh⟩ := h.pick alg
    exact ⟨pre, x, post, q', hsplit, hq, hh.sound⟩

theorem Sound.pick (h : q.Sound marker) (hsize : 0 < q.size) (hmark : q.atMarker = some false)
    {alg : SchedulingAlgorithm} (hpick : q.pick alg = some (b, q')) :
    ∃ pre post, q.bursts = pre ++ b :: post ∧ q'.Sound marker ∧ q'.bursts = pre ++ post := by
  obtain ⟨pre, x, post, r, hsplit, hr, hsound, hbursts⟩ := h.exists_pick hsize hmark alg
  obtain ⟨rfl, rfl⟩ : x = b ∧ r = q' := by simpa using hr.symm.trans hpick
  exact ⟨pre, post, hsplit, hsound, hbursts⟩

end Queue

/-! ## What a step can do -/

inductive Effect {p : SchedProps} (s : State p) : State p → Prop
  | produce {j : Job} {todo : List Job} {i rr : Fin p.queuesSize} {b : BurstItem} {q : Queue}
      (todo_eq : s.todo = j :: todo) (job : b.job = j) (enq : (s.queues i).enqueue b = some q) :
      Effect s { s.setQueue i q with todo := todo, rrQueueIdx := rr }
  | mark {i : Fin p.queuesSize} {q : Queue} (todo_eq : s.todo = []) (next : i.val = s.marked)
      (enq : (s.queues i).enqueue endMarker = some q) :
      Effect s { s.setQueue i q with marked := s.marked + 1 }
  | poll {c : Fin p.N} (idle : s.cpus c = .top ∨ s.cpus c = .polling) :
      Effect s (s.setCpu c .polling)
  | exit {c : Fin p.N} (idle : s.cpus c = .top ∨ s.cpus c = .polling)
      (marker : (s.queues (p.queue c)).atMarker = some true) : Effect s (s.setCpu c .exited)
  | take {c : Fin p.N} {b : BurstItem} {q : Queue} (polling : s.cpus c = .polling)
      (size : 0 < (s.queues (p.queue c)).size)
      (marker : (s.queues (p.queue c)).atMarker = some false)
      (pick : (s.queues (p.queue c)).pick p.alg = some (b, q)) :
      Effect s ((s.setQueue (p.queue c) q).setCpu c (.running b))
  | requeue {c : Fin p.N} {b b' : BurstItem} {q : Queue} (running : s.cpus c = .running b)
      (job : b'.job = b.job) (enq : (s.queues (p.queue c)).enqueue b' = some q) :
      Effect s ((s.setQueue (p.queue c) q).setCpu c .top)
  | finish {c : Fin p.N} {b b' : BurstItem} {q : Queue} (running : s.cpus c = .running b)
      (job : b'.job = b.job) (remaining : b'.remainingTime = 0)
      (enq : s.finishedQueue.enqueue b' = some q) :
      Effect s ((s.setFinished q).setCpu c .top)

namespace State

variable {p : SchedProps} {s t : State p}

/-- One step of CPU `c`. -/
inductive CpuEffect (s : State p) (c : Fin p.N) : State p → Prop
  | poll (idle : s.cpus c = .top ∧ (s.queues (p.queue c)).atMarker = some false ∨
      s.cpus c = .polling ∧ ¬ 0 < (s.queues (p.queue c)).size) : CpuEffect s c (s.setCpu c .polling)
  | exit (idle : s.cpus c = .top ∨ s.cpus c = .polling)
      (marker : (s.queues (p.queue c)).atMarker = some true) : CpuEffect s c (s.setCpu c .exited)
  | take {b : BurstItem} {q : Queue} (polling : s.cpus c = .polling)
      (size : 0 < (s.queues (p.queue c)).size)
      (marker : (s.queues (p.queue c)).atMarker = some false)
      (pick : (s.queues (p.queue c)).pick p.alg = some (b, q)) :
      CpuEffect s c ((s.setQueue (p.queue c) q).setCpu c (.running b))
  | requeue {b : BurstItem} {q : Queue} (running : s.cpus c = .running b)
      (slice : p.alg = .rr ∧ b.remainingTime > p.Q)
      (enq : (s.queues (p.queue c)).enqueue
        { b with remainingTime := b.remainingTime - p.Q } = some q) :
      CpuEffect s c ((s.setQueue (p.queue c) q).setCpu c .top)
  | finish {b b' : BurstItem} {q : Queue} (running : s.cpus c = .running b)
      (last : ¬ (p.alg = .rr ∧ b.remainingTime > p.Q)) (job : b'.job = b.job)
      (remaining : b'.remainingTime = 0) (enq : s.finishedQueue.enqueue b' = some q) :
      CpuEffect s c ((s.setFinished q).setCpu c .top)

theorem cpu_effect {c : Fin p.N} {now : ℤ} (h : s.cpu c now = some t) : CpuEffect s c t := by
  unfold cpu at h
  cases hc : s.cpus c with
  | top =>
    simp only [hc, Option.map_eq_some_iff] at h
    obtain ⟨stop, hm, rfl⟩ := h
    cases stop with
    | true => exact .exit (.inl hc) hm
    | false => exact .poll (.inl ⟨hc, hm⟩)
  | polling =>
    simp only [hc] at h
    split_ifs at h with hsize
    · simp only [Option.bind_eq_bind, Option.bind_eq_some_iff] at h
      obtain ⟨stop, hm, h⟩ := h
      cases stop with
      | true =>
        obtain rfl : s.setCpu c .exited = t := by simpa using h
        exact .exit (.inr hc) hm
      | false =>
        simp only [Bool.false_eq_true, if_false, Option.bind_eq_some_iff] at h
        obtain ⟨⟨b, q⟩, hp, h⟩ := h
        obtain rfl := Option.some.inj h
        exact .take hc hsize hm hp
    · obtain rfl := Option.some.inj h
      have := CpuEffect.poll (s := s) (.inr ⟨hc, hsize⟩)
      rwa [setCpu, ← hc, Function.update_eq_self] at this
  | running b =>
    simp only [hc, complete] at h
    split_ifs at h with hslice
    · obtain ⟨q, hq, rfl⟩ := Option.map_eq_some_iff.mp h
      exact .requeue hc hslice hq
    · obtain ⟨q, hq, rfl⟩ := Option.map_eq_some_iff.mp h
      refine .finish hc hslice ?_ ?_ hq <;> rfl
  | exited => simp [hc] at h

theorem cpu_cases {c : Fin p.N} {now : ℤ} (h : s.cpu c now = some t) : Effect s t := by
  cases cpu_effect h with
  | poll idle => exact .poll (idle.imp And.left And.left)
  | exit idle marker => exact .exit idle marker
  | take polling size marker pick => exact .take polling size marker pick
  | requeue running _ enq =>
    refine .requeue running ?_ enq
    rfl
  | finish running _ job remaining enq => exact .finish running job remaining enq

/-- What one CPU leaves alone. -/
theorem CpuEffect.frame {c : Fin p.N} (h : CpuEffect s c t) :
    t.todo = s.todo ∧ t.marked = s.marked ∧ t.rrQueueIdx = s.rrQueueIdx ∧
      ∀ d ≠ c, t.cpus d = s.cpus d := by
  cases h <;> exact ⟨rfl, rfl, rfl, fun d hd => Function.update_of_ne hd _ _⟩

/-- The producer's step. -/
theorem produce_cases {arrivalTime unset : ℤ} {seen : Seen p.queuesSize}
    (h : s.act (.produce arrivalTime seen unset) = some t) :
    let i := p.select s.queueZero s.rrQueueIdx seen
    ∃ j todo q, s.todo = j :: todo ∧
      (s.queues i).enqueue (p.mkBurst j arrivalTime i unset) = some q ∧
      t = { s.setQueue i q with todo := todo, rrQueueIdx := p.nextIdx s.rrQueueIdx } := by
  intro i
  cases htodo : s.todo with
  | nil => simp [act, produce, htodo] at h
  | cons j todo =>
    simp only [act, produce, htodo, Option.map_eq_some_iff] at h
    obtain ⟨q, hq, rfl⟩ := h
    exact ⟨j, todo, q, rfl, hq, rfl⟩

/-- The step that puts the next marker. -/
theorem mark_cases (h : s.act .mark = some t) :
    ∃ i q, s.todo = [] ∧ i.val = s.marked ∧ (s.queues i).enqueue endMarker = some q ∧
      t = { s.setQueue i q with marked := s.marked + 1 } := by
  simp only [act, mark] at h
  split_ifs at h with hm
  obtain ⟨q, hq, rfl⟩ := Option.map_eq_some_iff.mp h
  exact ⟨⟨s.marked, hm.2⟩, q, hm.1, rfl, hq, rfl⟩

theorem act_cases {a : Action p} (h : s.act a = some t) : Effect s t := by
  cases a with
  | produce arrivalTime seen unset =>
    obtain ⟨j, todo, q, htodo, hq, rfl⟩ := produce_cases h
    exact .produce htodo (p.mkBurst_job j _ _ _) hq
  | mark =>
    obtain ⟨i, q, htodo, hi, hq, rfl⟩ := mark_cases h
    exact .mark htodo hi hq
  | cpu c now => exact cpu_cases h

end State

/-! ## The invariant -/

namespace State

variable {p : SchedProps}

/-- The marker queue `i` ends with, once the producer has reached it. -/
def markerAt (marked i : ℕ) : Option BurstItem := if i < marked then some endMarker else none

structure Inv (s : State p) : Prop where
  queues : ∀ i, (s.queues i).Sound (markerAt s.marked i)
  finished : s.finishedQueue.Sound none
  remaining : ∀ b ∈ s.finishedQueue.bursts, b.remainingTime = 0
  todo : ∀ j ∈ s.todo, j.pid ≠ -1
  hands : ∀ c b, s.cpus c = .running b → b.pid ≠ -1
  marked : 0 < s.marked → s.todo = []
  exited : ∀ c, s.cpus c = .exited → (p.queue c).val < s.marked
  served : ∀ i, (s.queues i).bursts = [] ∨ ∃ c, p.queue c = i ∧ s.cpus c ≠ .exited

end State

theorem SchedProps.exists_queue_eq (p : SchedProps) (hN : 0 < p.N) (i : Fin p.queuesSize) :
    ∃ c, p.queue c = i := by
  have hi := i.isLt
  unfold queuesSize at hi
  cases hsap : p.sap with
  | single => exact ⟨⟨0, hN⟩, Fin.ext (by simp [queue, hsap] at hi ⊢; omega)⟩
  | multi => exact ⟨⟨i, by simpa [hsap] using hi⟩, Fin.ext (by simp [queue, hsap])⟩

namespace State

variable {p : SchedProps} {s t : State p}

theorem Inv.setQueue (h : s.Inv) {i : Fin p.queuesSize} {q : Queue}
    (hq : q.Sound (markerAt s.marked i))
    (hserved : q.bursts = [] ∨ ∃ c, p.queue c = i ∧ s.cpus c ≠ .exited) : (s.setQueue i q).Inv :=
  { h with
    queues := by
      apply (Function.forall_update_iff s.queues fun k q => q.Sound (markerAt s.marked k)).mpr
      exact ⟨hq, fun k _ => h.queues k⟩
    served := by
      apply (Function.forall_update_iff s.queues fun k q =>
        q.bursts = [] ∨ ∃ c, p.queue c = k ∧ s.cpus c ≠ .exited).mpr
      exact ⟨hserved, fun k _ => h.served k⟩ }

/-- A CPU moves on without leaving its loop. -/
theorem Inv.setCpu (h : s.Inv) {c : Fin p.N} {l : CpuState} (hl : l ≠ .exited)
    (hhands : ∀ b, l = .running b → b.pid ≠ -1) : (s.setCpu c l).Inv :=
  { h with
    hands := by
      apply (Function.forall_update_iff s.cpus fun _ l => ∀ b, l = .running b → b.pid ≠ -1).mpr
      exact ⟨hhands, fun d _ => h.hands d⟩
    exited := by
      apply (Function.forall_update_iff s.cpus fun d l =>
        l = .exited → (p.queue d).val < s.marked).mpr
      exact ⟨fun he => absurd he hl, fun d _ => h.exited d⟩
    served := fun i => (h.served i).imp_right fun ⟨d, hd, hne⟩ => ⟨d, hd, by
      rcases eq_or_ne d c with rfl | hdc
      · simpa [State.setCpu] using hl
      · simpa [State.setCpu, hdc] using hne⟩ }

/-- A CPU leaves its loop at a queue that has a marker and no bursts. -/
theorem Inv.setCpu_exited (h : s.Inv) {c : Fin p.N} (hmark : (p.queue c).val < s.marked)
    (hempty : (s.queues (p.queue c)).bursts = []) : (s.setCpu c .exited).Inv :=
  { h with
    hands := by
      apply (Function.forall_update_iff s.cpus fun _ l => ∀ b, l = .running b → b.pid ≠ -1).mpr
      exact ⟨by simp, fun d _ => h.hands d⟩
    exited := by
      apply (Function.forall_update_iff s.cpus fun d l =>
        l = .exited → (p.queue d).val < s.marked).mpr
      exact ⟨fun _ => hmark, fun d _ => h.exited d⟩
    served := fun i => by
      rcases eq_or_ne (p.queue c) i with rfl | hi
      · exact .inl hempty
      · refine (h.served i).imp_right fun ⟨d, hd, hne⟩ => ⟨d, hd, ?_⟩
        have hdc : d ≠ c := fun e => hi (e ▸ hd)
        simpa [State.setCpu, hdc] using hne }

/-- No marker is put into `finishedQueue`. -/
theorem Inv.finished_items (h : s.Inv) : s.finishedQueue.items = s.finishedQueue.bursts := by
  simp [h.finished.items_eq]

theorem Inv.pid_ne_of_todo (h : s.Inv) {j : Job} {todo : List Job} (htodo : s.todo = j :: todo)
    {b : BurstItem} (hjob : b.job = j) : b.pid ≠ -1 := by
  have := h.todo j (by simp [htodo])
  rwa [← hjob] at this

/-- What is produced joins the end of the bursts of a queue. -/
theorem Inv.produce_bursts (h : s.Inv) {arrivalTime unset : ℤ} {seen : Seen p.queuesSize}
    (hact : s.act (.produce arrivalTime seen unset) = some t) :
    let i := p.select s.queueZero s.rrQueueIdx seen
    ∃ j todo q, s.todo = j :: todo ∧
      q.bursts = (s.queues i).bursts ++ [p.mkBurst j arrivalTime i unset] ∧
      t = { s.setQueue i q with todo := todo, rrQueueIdx := p.nextIdx s.rrQueueIdx } := by
  intro i
  obtain ⟨j, todo, q, htodo, hq, rfl⟩ := produce_cases hact
  have hpid := h.pid_ne_of_todo htodo (p.mkBurst_job j arrivalTime i unset)
  exact ⟨j, todo, q, htodo, ((h.queues i).enqueue hpid hq).2, rfl⟩

/-- A marker leaves the bursts of its queue as they are. -/
theorem Inv.mark_bursts (h : s.Inv) (hact : s.act .mark = some t) :
    ∃ i q, q.bursts = (s.queues i).bursts ∧
      t = { s.setQueue i q with marked := s.marked + 1 } := by
  obtain ⟨i, q, -, hi, hq, rfl⟩ := mark_cases hact
  have hnone : markerAt s.marked i = none := by simp [markerAt, hi]
  exact ⟨i, q, ((hnone ▸ h.queues i).enqueue_marker hq).2, rfl⟩

theorem Inv.pid_ne_of_running (h : s.Inv) {c : Fin p.N} {b b' : BurstItem}
    (hrun : s.cpus c = .running b) (hjob : b'.job = b.job) : b'.pid ≠ -1 := by
  have := h.hands c b hrun
  rwa [show b'.pid = b.pid from congrArg Job.pid hjob]

theorem Inv.step (hN : 0 < p.N) (h : s.Inv) (st : Effect s t) : t.Inv := by
  cases st with
  | @produce j todo i rr b q htodo hjob henq =>
    -- before the first marker no CPU has left its loop
    have hmarked : s.marked = 0 := by
      by_contra hne
      have := h.marked (by omega)
      simp [htodo] at this
    obtain ⟨c, hc⟩ := p.exists_queue_eq hN i
    have hin : s.cpus c ≠ .exited := fun he => by
      have := h.exited c he
      omega
    have hsound := ((h.queues i).enqueue (h.pid_ne_of_todo htodo hjob) henq).1
    exact { h.setQueue hsound (.inr ⟨c, hc, hin⟩) with
      todo := fun k hk => h.todo k (htodo ▸ List.mem_cons_of_mem _ hk)
      marked := fun hpos => absurd hmarked (Nat.pos_iff_ne_zero.mp hpos) }
  | @mark i q htodo hnext henq =>
    have hnone : markerAt s.marked i = none := by simp [markerAt, hnext]
    obtain ⟨hsound, hbursts⟩ := (hnone ▸ h.queues i).enqueue_marker henq
    exact { h with
      queues := fun k => by
        rcases eq_or_ne k i with rfl | hk
        · simpa [State.setQueue, markerAt, hnext] using hsound
        · have hne : k.val ≠ s.marked := fun e => hk (Fin.ext (e.trans hnext.symm))
          have hmk : markerAt (s.marked + 1) k = markerAt s.marked k := by
            simp only [markerAt, show k.val < s.marked + 1 ↔ k.val < s.marked by omega]
          simpa [State.setQueue, hk, hmk] using h.queues k
      marked := fun _ => htodo
      exited := fun c hc => Nat.lt_succ_of_lt (h.exited c hc)
      served := fun k => by
        rcases eq_or_ne k i with rfl | hk
        · simpa [State.setQueue, hbursts] using h.served k
        · simpa [State.setQueue, hk] using h.served k }
  | poll idle => exact h.setCpu (by simp) (by simp)
  | @exit c idle hmark =>
    rw [(h.queues _).atMarker_eq, Option.some.injEq, decide_eq_true_eq] at hmark
    refine h.setCpu_exited ?_ hmark.1
    by_contra hlt
    exact hmark.2 (by simp [markerAt, hlt])
  | @take c b q hpolling hsize hmark hpick =>
    obtain ⟨pre, post, hsplit, hsound, -⟩ := (h.queues (p.queue c)).pick hsize hmark hpick
    refine (h.setQueue hsound (.inr ⟨c, rfl, by simp [hpolling]⟩)).setCpu (by simp) ?_
    intro y hy
    obtain rfl := CpuState.running.inj hy
    exact (h.queues (p.queue c)).pid_ne b (by simp [hsplit])
  | @requeue c b b' q hrun hjob henq =>
    have hsound := ((h.queues (p.queue c)).enqueue (h.pid_ne_of_running hrun hjob) henq).1
    exact (h.setQueue hsound (.inr ⟨c, rfl, by simp [hrun]⟩)).setCpu (by simp) (by simp)
  | @finish c b b' q hrun hjob hrem henq =>
    obtain ⟨hsound, hbursts⟩ := h.finished.enqueue (h.pid_ne_of_running hrun hjob) henq
    have hfin : (s.setFinished q).Inv := { h with
      finished := hsound
      remaining := fun x hx => by
        rcases List.mem_append.mp (hbursts ▸ hx) with hx | hx
        · exact h.remaining x hx
        · rwa [List.mem_singleton.mp hx] }
    exact hfin.setCpu (by simp) (by simp)

/-- A queue that no CPU serves any more has no bursts. -/
theorem Inv.bursts_eq_nil (h : s.Inv) (hcpus : ∀ c, s.cpus c = .exited) (i : Fin p.queuesSize) :
    (s.queues i).bursts = [] := by
  rcases h.served i with hi | ⟨c, -, hc⟩
  · exact hi
  · exact absurd (hcpus c) hc

end State

theorem Workload.inv (w : Workload) {s : State w.toSchedProps} (h : w.system.Reachable s) :
    s.Inv := by
  refine h.invariant (fun s h₀ => ?_) fun s t _ hs ⟨a, ha⟩ => hs.step w.N_pos (State.act_cases ha)
  obtain ⟨hqueues, ⟨load, hfin⟩, htodo, -, hmarked, hcpus⟩ := h₀
  obtain ⟨hsound, hbursts⟩ := Queue.sound_empty load
  exact {
    queues := fun i => by
      obtain ⟨load, hq⟩ := hqueues i
      simpa [hq, State.markerAt, hmarked] using (Queue.sound_empty load).1
    finished := hfin ▸ hsound
    remaining := by simp [hfin, hbursts]
    todo := fun j hj => by
      have := w.pid_pos j (htodo ▸ hj)
      omega
    hands := by simp [hcpus]
    marked := by simp [hmarked]
    exited := by simp [hcpus]
    served := fun i => by
      obtain ⟨load, hq⟩ := hqueues i
      exact .inl (hq ▸ (Queue.sound_empty load).2) }

/-! ## No critical section fails -/

theorem Workload.cpu_isSome (w : Workload) {s : State w.toSchedProps} (h : w.system.Reachable s)
    {c : Fin w.N} (hc : s.cpus c ≠ .exited) (now : ℤ) : (s.act (.cpu c now)).isSome := by
  have hinv := w.inv h
  have hq := hinv.queues (w.queue c)
  rw [Option.isSome_iff_exists]
  cases hcpu : s.cpus c with
  | top => simp [State.act, State.cpu, hcpu, hq.atMarker_eq]
  | polling =>
    by_cases hsize : 0 < (s.queues (w.queue c)).size
    · cases hmark : (s.queues (w.queue c)).atMarker with
      | none => simp [hq.atMarker_eq] at hmark
      | some stop =>
        cases stop with
        | true => simp [State.act, State.cpu, hcpu, hsize, hmark]
        | false =>
          obtain ⟨-, x, -, q', -, hpick, -⟩ := hq.exists_pick hsize hmark w.alg
          simp [State.act, State.cpu, hcpu, hsize, hmark, hpick]
    · simp [State.act, State.cpu, hcpu, hsize]
  | running b =>
    have hb (b' : BurstItem) (hjob : b'.job = b.job) : b'.pid ≠ -1 :=
      hinv.pid_ne_of_running hcpu hjob
    by_cases halg : w.alg = .rr ∧ b.remainingTime > w.Q
    · simpa [State.act, State.cpu, hcpu, State.complete, halg] using
        hq.exists_enqueue (hb { b with remainingTime := b.remainingTime - w.Q } rfl)
    · simpa [State.act, State.cpu, hcpu, State.complete, halg] using
        hinv.finished.exists_enqueue (hb { b with
          remainingTime := 0, processorId := (c : ℕ), finishTime := now
          turnaroundTime := now - b.arrivalTime } rfl)
  | exited => exact absurd hcpu hc

theorem Workload.produce_isSome (w : Workload) {s : State w.toSchedProps}
    (h : w.system.Reachable s) (htodo : s.todo ≠ []) (arrivalTime : ℤ) (seen : Seen w.queuesSize)
    (unset : ℤ) : (s.act (.produce arrivalTime seen unset)).isSome := by
  have hinv := w.inv h
  obtain ⟨j, todo, htodo⟩ := List.exists_cons_of_ne_nil htodo
  rw [Option.isSome_iff_exists]
  simpa [State.act, State.produce, htodo] using
    (hinv.queues _).exists_enqueue (hinv.pid_ne_of_todo htodo (w.mkBurst_job j _ _ _))

/-! ## The ledger -/

inductive Place (p : SchedProps) where
  | ready (i : Fin p.queuesSize)
  | hands (c : Fin p.N)
  | finished
  deriving DecidableEq, Fintype

namespace Queue

def jobs (q : Queue) : Multiset Job := (q.bursts.map BurstItem.job : List Job)

variable {q q' : Queue} {b : BurstItem}

theorem jobs_concat (h : q'.bursts = q.bursts ++ [b]) : q'.jobs = b.job ::ₘ q.jobs := by
  rw [jobs, jobs, h, List.map_append]
  exact Multiset.coe_eq_coe.mpr (List.perm_append_singleton _ _)

theorem jobs_middle {pre post : List BurstItem} (h : q.bursts = pre ++ b :: post)
    (h' : q'.bursts = pre ++ post) : q.jobs = b.job ::ₘ q'.jobs := by
  rw [jobs, jobs, h, h', List.map_append, List.map_append]
  exact Multiset.coe_eq_coe.mpr List.perm_middle

end Queue

def CpuState.jobs : CpuState → Multiset Job
  | .running b => {b.job}
  | _ => 0

def CpuState.bursts : CpuState → List BurstItem
  | .running b => [b]
  | _ => []

namespace State

variable {p : SchedProps} {s t : State p}

/-- The bursts at a place. -/
def jobsAt (s : State p) : Place p → Multiset Job
  | .ready i => (s.queues i).jobs
  | .hands c => (s.cpus c).jobs
  | .finished => s.finishedQueue.jobs

/-- The same, with all that is noted of them. -/
def burstsAt (s : State p) : Place p → List BurstItem
  | .ready i => (s.queues i).bursts
  | .hands c => (s.cpus c).bursts
  | .finished => s.finishedQueue.bursts

def ledger (s : State p) : Ledger (Place p) Job := ⟨(s.todo : Multiset Job), s.jobsAt⟩

theorem jobsAt_eq (s : State p) :
    s.jobsAt = (fun l : List BurstItem => (l.map BurstItem.job : Multiset Job)) ∘ s.burstsAt := by
  funext pl
  cases pl with
  | ready | finished => rfl
  | hands c => cases h : s.cpus c <;> simp [jobsAt, burstsAt, h, CpuState.jobs, CpuState.bursts]

theorem mem_jobsAt {pl : Place p} {b : BurstItem} (h : b ∈ s.burstsAt pl) :
    b.job ∈ s.jobsAt pl := by
  rw [jobsAt_eq]
  exact List.mem_map_of_mem h

theorem burstsAt_setQueue (s : State p) (i : Fin p.queuesSize) (q : Queue) :
    (s.setQueue i q).burstsAt = Function.update s.burstsAt (.ready i) q.bursts := by
  funext pl
  cases pl with
  | ready k =>
    rcases eq_or_ne k i with rfl | hk
    · simp [burstsAt, setQueue]
    · simp [burstsAt, setQueue, hk]
  | hands c => simp [burstsAt, setQueue]
  | finished => simp [burstsAt, setQueue]

theorem burstsAt_setCpu (s : State p) (c : Fin p.N) (l : CpuState) :
    (s.setCpu c l).burstsAt = Function.update s.burstsAt (.hands c) l.bursts := by
  funext pl
  cases pl with
  | hands d =>
    rcases eq_or_ne d c with rfl | hd
    · simp [burstsAt, setCpu]
    · simp [burstsAt, setCpu, hd]
  | ready k => simp [burstsAt, setCpu]
  | finished => simp [burstsAt, setCpu]

theorem burstsAt_setFinished (s : State p) (q : Queue) :
    (s.setFinished q).burstsAt = Function.update s.burstsAt .finished q.bursts := by
  funext pl
  cases pl <;> simp [burstsAt, setFinished]

theorem jobsAt_setQueue (s : State p) (i : Fin p.queuesSize) (q : Queue) :
    (s.setQueue i q).jobsAt = Function.update s.jobsAt (.ready i) q.jobs := by
  rw [jobsAt_eq, jobsAt_eq, burstsAt_setQueue, Function.comp_update]
  rfl

theorem jobsAt_setCpu (s : State p) (c : Fin p.N) (l : CpuState) :
    (s.setCpu c l).jobsAt = Function.update s.jobsAt (.hands c) l.jobs := by
  rw [jobsAt_eq, jobsAt_eq, burstsAt_setCpu, Function.comp_update]
  cases l <;> rfl

theorem jobsAt_setFinished (s : State p) (q : Queue) :
    (s.setFinished q).jobsAt = Function.update s.jobsAt .finished q.jobs := by
  rw [jobsAt_eq, jobsAt_eq, burstsAt_setFinished, Function.comp_update]
  rfl

/-- A CPU without a burst moves on without taking one. -/
theorem ledger_setCpu {c : Fin p.N} {l : CpuState} (h : (s.cpus c).jobs = 0) (hl : l.jobs = 0) :
    (s.setCpu c l).ledger = s.ledger := by
  have hc : s.jobsAt (.hands c) = l.jobs := h.trans hl.symm
  rw [ledger, jobsAt_setCpu, ← hc, Function.update_eq_self]
  rfl

/-- Every step of the scheduler is a step of the ledger, or leaves it as it is. -/
theorem Inv.ledger_step (h : s.Inv) (st : Effect s t) :
    Relation.ReflTransGen Ledger.Step s.ledger t.ledger := by
  cases st with
  | @produce j todo i rr b q htodo hjob henq =>
    have hjobs := Queue.jobs_concat
      ((h.queues i).enqueue (h.pid_ne_of_todo htodo hjob) henq).2
    have hpend : s.ledger.pending = j ::ₘ (todo : Multiset Job) := congrArg _ htodo
    have hplace : (s.setQueue i q).jobsAt =
        Function.update s.jobsAt (.ready i) (j ::ₘ s.jobsAt (.ready i)) := by
      rw [jobsAt_setQueue, hjobs, hjob]; rfl
    have := Ledger.Step.arrive hpend (.ready i)
    rw [Ledger.put, ledger, ← hplace] at this
    exact .single this
  | @mark i q htodo hnext henq =>
    have hnone : markerAt s.marked i = none := by simp [markerAt, hnext]
    obtain ⟨-, hbursts⟩ := (hnone ▸ h.queues i).enqueue_marker henq
    have hplace : (s.setQueue i q).jobsAt = s.jobsAt := by
      rw [jobsAt_setQueue, Queue.jobs, hbursts]
      exact Function.update_eq_self _ _
    have heq : s.ledger = (s.setQueue i q).ledger := by rw [ledger, ledger, hplace]; rfl
    rw [heq]
    exact .refl
  | poll idle =>
    rw [ledger_setCpu (by rcases idle with h | h <;> simp [h, CpuState.jobs]) rfl]
  | exit idle hmark =>
    rw [ledger_setCpu (by rcases idle with h | h <;> simp [h, CpuState.jobs]) rfl]
  | @take c b q hpolling hsize hmark hpick =>
    obtain ⟨pre, post, hsplit, -, hbursts⟩ := (h.queues (p.queue c)).pick hsize hmark hpick
    have hjobs : s.ledger.place (.ready (p.queue c)) = b.job ::ₘ q.jobs :=
      Queue.jobs_middle hsplit hbursts
    have hhand : s.jobsAt (.hands c) = 0 := by simp [jobsAt, hpolling, CpuState.jobs]
    have := Ledger.Step.of_ne hjobs (q := .hands c) (by simp)
    simp only [ledger, hhand] at this
    rw [ledger, ledger, jobsAt_setCpu, jobsAt_setQueue]
    exact .single this
  | @requeue c b b' q hrun hjob henq =>
    have hjobs := Queue.jobs_concat
      ((h.queues (p.queue c)).enqueue (h.pid_ne_of_running hrun hjob) henq).2
    have hhand : s.ledger.place (.hands c) = b.job ::ₘ 0 := by
      simp [ledger, jobsAt, hrun, CpuState.jobs]
    have := Ledger.Step.of_ne hhand (q := .ready (p.queue c)) (by simp)
    rw [ledger, ledger, jobsAt_setCpu, jobsAt_setQueue, Function.update_comm (by simp), hjobs, hjob]
    exact .single this
  | @finish c b b' q hrun hjob hrem henq =>
    have hjobs := Queue.jobs_concat (h.finished.enqueue (h.pid_ne_of_running hrun hjob) henq).2
    have hhand : s.ledger.place (.hands c) = b.job ::ₘ 0 := by
      simp [ledger, jobsAt, hrun, CpuState.jobs]
    have := Ledger.Step.of_ne hhand (q := .finished) (by simp)
    rw [ledger, ledger, jobsAt_setCpu, jobsAt_setFinished, Function.update_comm (by simp), hjobs,
      hjob]
    exact .single this

end State

/-- At the start no burst is anywhere yet. -/
theorem Workload.burstsAt_init {w : Workload} {s : State w.toSchedProps} (h : w.init s)
    (pl : Place w.toSchedProps) : s.burstsAt pl = [] := by
  obtain ⟨hqueues, ⟨load, hfin⟩, -, -, -, hcpus⟩ := h
  cases pl with
  | ready i =>
    obtain ⟨load, hq⟩ := hqueues i
    simp [State.burstsAt, hq, (Queue.sound_empty load).2]
  | hands c => simp [State.burstsAt, hcpus, CpuState.bursts]
  | finished => simp [State.burstsAt, hfin, (Queue.sound_empty load).2]

theorem Workload.ledger_reachable (w : Workload) {s : State w.toSchedProps}
    (h : w.system.Reachable s) : (Ledger.system (w.jobs : Multiset Job)).Reachable s.ledger := by
  refine h.simulate (fun s h₀ => ?_) fun s t hr ⟨a, ha⟩ =>
    (w.inv hr).ledger_step (State.act_cases ha)
  have htodo : s.todo = w.jobs := h₀.2.2.1
  have hplace : s.jobsAt = fun _ => 0 := by
    funext pl
    simp [State.jobsAt_eq, burstsAt_init h₀]
  rw [State.ledger, htodo, hplace]
  rfl

/-- No burst comes from anywhere but the workload. -/
theorem Workload.job_mem {w : Workload} {s : State w.toSchedProps} {pl : Place w.toSchedProps}
    {b : BurstItem} (h : w.system.Reachable s) (hb : b ∈ s.burstsAt pl) : b.job ∈ w.jobs :=
  Ledger.mem_items (w.ledger_reachable h) (State.mem_jobsAt hb)

theorem Workload.todo_mem {w : Workload} {s : State w.toSchedProps} (h : w.system.Reachable s)
    {j : Job} (hj : j ∈ s.todo) : j ∈ w.jobs := by
  have htotal := Ledger.total_of_reachable (w.ledger_reachable h)
  rw [← Multiset.mem_coe, ← htotal]
  exact Multiset.mem_add.mpr (.inl hj)

/-- The bursts at one place have distinct pids. -/
theorem Workload.nodup_pids (w : Workload) {s : State w.toSchedProps}
    (h : w.system.Reachable s) (pl : Place w.toSchedProps) :
    ((s.burstsAt pl).map BurstItem.pid).Nodup := by
  have htotal := Ledger.total_of_reachable (w.ledger_reachable h)
  have hle : s.jobsAt pl ≤ (w.jobs : Multiset Job) := by
    rw [← htotal]
    exact (Finset.single_le_sum (f := s.jobsAt) (by simp) (Finset.mem_univ pl)).trans
      (Multiset.le_add_left _ _)
  have hnd : ((s.jobsAt pl).map Job.pid).Nodup :=
    Multiset.nodup_of_le (Multiset.map_le_map hle) (Multiset.coe_nodup.mpr w.pid_nodup)
  simpa [State.jobsAt_eq, BurstItem.job, Function.comp_def] using hnd

/-! ## The results -/

/-- When no CPU is in its loop any more, `finishedQueue` is the only place with bursts. -/
theorem Workload.total_eq_finished (w : Workload) {s : State w.toSchedProps} (h : s.Inv)
    (hcpus : ∀ c, s.cpus c = .exited) : s.ledger.total = s.finishedQueue.jobs := by
  refine Finset.sum_eq_single_of_mem Place.finished (Finset.mem_univ _) fun pl _ hpl => ?_
  cases pl with
  | ready i =>
    have hempty := h.bursts_eq_nil hcpus i
    simp [State.ledger, State.jobsAt, Queue.jobs, hempty]
  | hands c => simp [State.ledger, State.jobsAt, hcpus, CpuState.jobs]
  | finished => exact absurd rfl hpl

/-- Every burst that has been enqueued is in exactly one place, and there once; when the
producer is done and all CPUs have left their loop, the ready queues hold exactly their
markers, which `schedule` frees, and `finishedQueue` holds every burst, run to the end. -/
theorem Workload.no_burst_lost (w : Workload) {s : State w.toSchedProps}
    (h : w.system.Reachable s) :
    (∀ j ∈ w.jobs, j ∉ s.todo → ∃! pl, j ∈ s.jobsAt pl) ∧ (∀ pl, (s.jobsAt pl).Nodup) ∧
      (s.todo = [] → s.marked = w.queuesSize → (∀ c, s.cpus c = .exited) →
        (∀ i, (s.queues i).items = [endMarker] ∧
          ∃ cells, (s.queues i).freeHead = some (endMarker, cells)) ∧
        (s.finishedQueue.items.map BurstItem.job).Perm w.jobs ∧
        ∀ b ∈ s.finishedQueue.items, b.remainingTime = 0) := by
  have hinv := w.inv h
  have hled := w.ledger_reachable h
  have hnd : (w.jobs : Multiset Job).Nodup := w.pid_nodup.of_map _
  refine ⟨fun j hj hsent => Ledger.existsUnique_place hled hnd hj hsent,
    fun pl => Ledger.nodup_place hled hnd pl, fun htodo hmarked hcpus => ⟨fun i => ?_, ?_, ?_⟩⟩
  · have hq := hinv.queues i
    have hempty := hinv.bursts_eq_nil hcpus i
    have hi : i.val < s.marked := by rw [hmarked]; exact i.isLt
    rw [State.markerAt, if_pos hi] at hq
    obtain ⟨_, hh⟩ := hq
    rw [hempty] at hh
    exact ⟨hh.items_eq, hh.freeHead⟩
  · have htotal := Ledger.total_of_reachable hled
    rw [w.total_eq_finished hinv hcpus] at htotal
    rw [hinv.finished_items]
    have hjobs : s.finishedQueue.jobs = (w.jobs : Multiset Job) := by
      simpa [State.ledger, htodo] using htotal
    exact Multiset.coe_eq_coe.mp hjobs
  · intro b hb
    exact hinv.remaining b (hinv.finished_items ▸ hb)

/-! ## An instance -/

namespace Workload

def start (w : Workload) : State w.toSchedProps where
  queues _ := Queue.empty 0
  finishedQueue := Queue.empty 0
  todo := w.jobs
  rrQueueIdx := ⟨0, w.queuesSize_pos w.N_pos⟩
  marked := 0
  cpus _ := .top

theorem init_start (w : Workload) : w.init w.start :=
  ⟨fun _ => ⟨0, rfl⟩, ⟨0, rfl⟩, rfl, rfl, rfl, fun _ => rfl⟩

theorem reachable_of_perform (w : Workload) {as : List (Action w.toSchedProps)}
    {s : State w.toSchedProps} (h : System.perform State.act as w.start = some s) :
    w.system.Reachable s :=
  ⟨w.start, ⟨fun _ => ⟨0, rfl⟩, ⟨0, rfl⟩, rfl, rfl, rfl, fun _ => rfl⟩, System.steps_of_perform h⟩

/-- Two CPUs that share a queue under round robin. -/
def pair : Workload where
  N := 2
  Q := 2
  sap := .single
  qs := .na
  alg := .rr
  source := .file
  jobs := [⟨1, 3⟩, ⟨2, 1⟩]
  N_pos := by decide
  Q_pos := by decide
  pid_pos := by decide
  pid_nodup := by decide

/-- CPU 1 leaves its loop while CPU 0 holds a burst that it then puts back. -/
def pairActions : List (Action pair.toSchedProps) :=
  let seen : Seen pair.queuesSize := ⟨0, fun _ => 0, fun _ => 0⟩
  let cpu0 : Fin 2 := Fin.rev (Fin.last 1)
  let cpu1 : Fin 2 := Fin.last 1
  [.produce 0 seen 0, .cpu cpu0 0, .cpu cpu0 0, .produce 1 seen 0, .cpu cpu1 1, .cpu cpu1 1, .mark,
   .cpu cpu1 2, .cpu cpu1 2, .cpu cpu0 2, .cpu cpu0 2, .cpu cpu0 2, .cpu cpu0 3, .cpu cpu0 3]

def pairEnd : State pair.toSchedProps :=
  (System.perform State.act pairActions pair.start).get (by decide +kernel)

theorem reachable_pairEnd : pair.system.Reachable pairEnd :=
  pair.reachable_of_perform (Option.some_get _).symm

theorem no_burst_lost_pairEnd :
    (∀ i, (pairEnd.queues i).items = [endMarker] ∧
      ∃ cells, (pairEnd.queues i).freeHead = some (endMarker, cells)) ∧
    (pairEnd.finishedQueue.items.map BurstItem.job).Perm pair.jobs ∧
    ∀ b ∈ pairEnd.finishedQueue.items, b.remainingTime = 0 :=
  (no_burst_lost pair reachable_pairEnd).2.2 (by decide +kernel) (by decide +kernel)
    (by decide +kernel)

end Workload

end Cs342.Scheduler
