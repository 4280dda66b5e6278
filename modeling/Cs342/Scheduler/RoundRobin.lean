import Cs342.Scheduler.Conservation

/-!
# Round robin is fair

Unless the shortest burst is searched for, a CPU takes the burst at the head of its
queue. Whatever is put into a queue, be it new, put back, or in front of a marker,
joins the end of the bursts. So what is taken from a queue over a run, followed by
what it holds in the end, is what it held at the start followed by what was added.
-/

namespace Cs342.Scheduler

open Library

theorem Queue.Sound.pick_head {q q' : Queue} {b : BurstItem} {marker : Option BurstItem}
    (h : q.Sound marker) (hsize : 0 < q.size) (hmark : q.atMarker = some false)
    {alg : SchedulingAlgorithm} (halg : alg ≠ .sjf) (hpick : q.pick alg = some (b, q')) :
    q.bursts = b :: q'.bursts := by
  obtain ⟨pre, post, hsplit, -⟩ := h.pick hsize hmark hpick
  obtain ⟨q0, h⟩ := h
  obtain ⟨x, bs, hbs⟩ : ∃ x bs, q.bursts = x :: bs :=
    List.exists_cons_of_ne_nil (by simp [hsplit])
  rw [hbs] at h
  obtain ⟨r, hr, hh⟩ := h.dequeue
  have hpick' : q.pick alg = some (x, r) := by
    cases alg <;> simp_all [Queue.pick]
  obtain ⟨rfl, rfl⟩ : x = b ∧ r = q' := by simpa using hpick'.symm.trans hpick
  rw [hbs, hh.bursts_eq]

namespace State

variable {p : SchedProps} {s t u : State p} {a : Action p} {i : Fin p.queuesSize} {b : BurstItem}

/-- The burst an action puts into a ready queue. -/
def added (s : State p) : Action p → Option (Fin p.queuesSize × BurstItem)
  | .produce arrivalTime seen unset =>
    match s.todo with
    | [] => none
    | j :: _ =>
      let i := p.select s.queueZero s.rrQueueIdx seen
      some (i, p.mkBurst j arrivalTime i unset)
  | .mark => none
  | .cpu c _ =>
    match s.cpus c with
    | .running burst =>
      if p.alg = .rr ∧ burst.remainingTime > p.Q then
        some (p.queue c, { burst with remainingTime := burst.remainingTime - p.Q })
      else none
    | _ => none

/-- The burst an action takes out of a ready queue. -/
def taken (s : State p) : Action p → Option (Fin p.queuesSize × BurstItem)
  | .cpu c _ =>
    let queue := s.queues (p.queue c)
    if s.cpus c = .polling ∧ queue.size > 0 ∧ queue.atMarker = some false then
      (queue.pick p.alg).map fun r => (p.queue c, r.1)
    else none
  | _ => none

/-- No action does both. -/
theorem taken_eq_none {move : Fin p.queuesSize × BurstItem} (h : s.added a = some move) :
    s.taken a = none := by
  cases a with
  | produce => rfl
  | mark => rfl
  | cpu c now =>
    cases hc : s.cpus c with
    | running b => simp [taken, hc]
    | top | polling | exited => simp [added, hc] at h

/-- The part of it that concerns queue `i`. -/
def ofQueue (i : Fin p.queuesSize) (move : Option (Fin p.queuesSize × BurstItem)) :
    List BurstItem :=
  (move.toList.filter fun m => m.1 = i).map Prod.snd

@[simp] theorem ofQueue_none : ofQueue i none = [] := rfl

@[simp] theorem ofQueue_self : ofQueue i (some (i, b)) = [b] := by simp [ofQueue]

theorem ofQueue_of_ne {k : Fin p.queuesSize} (h : k ≠ i) : ofQueue i (some (k, b)) = [] := by
  simp [ofQueue, h]

theorem bursts_add {k : Fin p.queuesSize} {q : Queue}
    (hq : t.queues = Function.update s.queues k q)
    (hb : q.bursts = (s.queues k).bursts ++ [b]) (i : Fin p.queuesSize) :
    (t.queues i).bursts = (s.queues i).bursts ++ ofQueue i (some (k, b)) := by
  rcases eq_or_ne k i with rfl | hne
  · rw [hq, Function.update_self, hb, ofQueue_self]
  · rw [hq, Function.update_of_ne hne.symm, ofQueue_of_ne hne, List.append_nil]

theorem bursts_take {k : Fin p.queuesSize} {q : Queue}
    (hq : t.queues = Function.update s.queues k q) (hb : (s.queues k).bursts = b :: q.bursts)
    (i : Fin p.queuesSize) :
    ofQueue i (some (k, b)) ++ (t.queues i).bursts = (s.queues i).bursts := by
  rcases eq_or_ne k i with rfl | hne
  · rw [hq, Function.update_self, hb, ofQueue_self, List.singleton_append]
  · rw [hq, Function.update_of_ne hne.symm, ofQueue_of_ne hne, List.nil_append]

/-- One action takes from the front of the bursts of a queue and adds to their end. -/
theorem Inv.lane (h : s.Inv) (halg : p.alg ≠ .sjf) (hact : s.act a = some t)
    (i : Fin p.queuesSize) :
    ofQueue i (s.taken a) ++ (t.queues i).bursts =
      (s.queues i).bursts ++ ofQueue i (s.added a) := by
  cases a with
  | produce arrivalTime seen unset =>
    obtain ⟨j, todo, q, htodo, hbursts, rfl⟩ := h.produce_bursts hact
    simp only [added, htodo, taken, ofQueue_none, List.nil_append]
    exact bursts_add rfl hbursts i
  | mark =>
    obtain ⟨k, q, hbursts, rfl⟩ := h.mark_bursts hact
    simp only [added, taken, ofQueue_none, List.nil_append, List.append_nil]
    rcases eq_or_ne i k with rfl | hne
    · simpa [State.setQueue] using hbursts
    · simp [State.setQueue, hne]
  | cpu c now =>
    cases cpu_effect hact with
    | poll idle =>
      have htaken : s.taken (.cpu c now) = none := by
        rcases idle with ⟨htop, -⟩ | ⟨-, hempty⟩
        · simp [taken, htop]
        · simp [taken, hempty]
      rcases idle with ⟨hc, -⟩ | ⟨hc, -⟩ <;> simp [htaken, added, hc, State.setCpu]
    | exit idle hmark =>
      have htaken : s.taken (.cpu c now) = none := by simp [taken, hmark]
      rcases idle with hc | hc <;> simp [htaken, added, hc, State.setCpu]
    | @take b q hc hsize hmark hpick =>
      have hbursts := (h.queues (p.queue c)).pick_head hsize hmark halg hpick
      simp only [added, hc, taken, hsize, hmark, hpick, and_self, if_true,
        Option.map_some, ofQueue_none, List.append_nil]
      exact bursts_take rfl hbursts i
    | @requeue b q hc hslice hq =>
      have hpid : { b with remainingTime := b.remainingTime - p.Q }.pid ≠ -1 := h.hands c b hc
      have hbursts := ((h.queues (p.queue c)).enqueue hpid hq).2
      simp only [added, hc, if_pos hslice, taken, ofQueue_none, List.nil_append,
        reduceCtorEq, false_and, if_false]
      exact bursts_add rfl hbursts i
    | finish hc hlast =>
      simp [added, taken, hc, if_neg hlast, State.setFinished, State.setCpu]

end State

namespace Workload

variable {w : Workload} {s t u : State w.toSchedProps} {a : Action w.toSchedProps}
  {as : List (Action w.toSchedProps)} {i : Fin w.queuesSize} {b : BurstItem}

/-- The law of the lane over a whole run. -/
theorem collect_taken (halg : w.alg ≠ .sjf) (h : w.system.Reachable s)
    (hrun : System.perform State.act as s = some t) (i : Fin w.queuesSize) :
    System.collect State.act (fun s a => State.ofQueue i (s.taken a)) as s ++
        (t.queues i).bursts =
      (s.queues i).bursts ++
        System.collect State.act (fun s a => State.ofQueue i (s.added a)) as s :=
  System.collect_lane (I := w.system.Reachable) h
    (fun _ a _ hr ha => hr.next ⟨a, ha⟩) (fun _ _ _ hr ha => (w.inv hr).lane halg ha i) hrun

/-- Whatever happens after a burst was put into a queue: the bursts taken from the queue are
those that were in it, in their order and each once, and only then the burst. -/
theorem round_robin_fair (halg : w.alg = .rr) (h : w.system.Reachable s)
    (hadded : s.added a = some (i, b)) (hact : s.act a = some t)
    (hrun : System.perform State.act as t = some u) :
    let waiting := (s.queues i).bursts
    let taken := System.collect State.act (fun s a => State.ofQueue i (s.taken a)) as t
    ((waiting ++ [b]).map BurstItem.pid).Nodup ∧
      (taken <+: waiting ∨ ∃ later, taken = waiting ++ b :: later) := by
  intro waiting taken
  have hsjf : w.alg ≠ .sjf := by simp [halg]
  have ht := h.next (t := t) ⟨a, hact⟩
  have hbursts : (t.queues i).bursts = waiting ++ [b] := by
    simpa [State.taken_eq_none hadded, hadded] using (w.inv h).lane hsjf hact i
  refine ⟨hbursts ▸ w.nodup_pids ht (.ready i), ?_⟩
  have hlaw := collect_taken hsjf ht hrun i
  rw [hbursts, List.append_assoc] at hlaw
  rcases List.append_eq_append_iff.mp hlaw with ⟨left, hleft, -⟩ | ⟨beyond, hbeyond, hrest⟩
  · exact .inl ⟨left, hleft.symm⟩
  · cases beyond with
    | nil => exact .inl ⟨[], (List.append_nil _).trans (by simpa using hbeyond)⟩
    | cons x later =>
      -- what is taken after the waiting bursts begins with the new one
      obtain ⟨rfl, -⟩ : b = x ∧ _ := by simpa using hrest
      exact .inr ⟨later, hbeyond⟩

/-- The two CPUs before CPU 0 puts its burst back in front of the marker, and after it. -/
def pairHeld : State pair.toSchedProps :=
  (System.perform State.act (pairActions.take 9) pair.start).get (by decide +kernel)

def pairBack : State pair.toSchedProps :=
  (pairHeld.act (.cpu (Fin.rev (Fin.last 1)) 2)).get (by decide +kernel)

theorem round_robin_fair_pairBack :
    let i : Fin pair.queuesSize := pair.queue (Fin.last 1)
    let b : BurstItem := ⟨1, 3, 0, 1, -1, -1, 0⟩
    let waiting := (pairHeld.queues i).bursts
    let taken := System.collect State.act (fun s a => State.ofQueue i (s.taken a))
      (pairActions.drop 10) pairBack
    ((waiting ++ [b]).map BurstItem.pid).Nodup ∧
      (taken <+: waiting ∨ ∃ later, taken = waiting ++ b :: later) :=
  round_robin_fair (w := pair) (s := pairHeld) (a := .cpu (Fin.rev (Fin.last 1)) 2)
    (i := pair.queue (Fin.last 1)) (b := ⟨1, 3, 0, 1, -1, -1, 0⟩)
    (u := (System.perform State.act (pairActions.drop 10) pairBack).get (by decide +kernel)) rfl
    (pair.reachable_of_perform (Option.some_get _).symm) (by decide +kernel)
    (Option.some_get _).symm (Option.some_get _).symm

end Workload

end Cs342.Scheduler
