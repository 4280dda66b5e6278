import Cs342.Scheduler.CondVar

/-!
# Who is woken up (sched_cv.c)

Neither a marker nor a burst that is put back comes with a signal. If nobody waits, or is
about to, when that happens to a queue, then whoever waits for the queue later has found
it empty, and it stays so. The queues are in disorder otherwise: without the lock a CPU
may even take the marker, so a queue is only known to have at most one, at its end.
-/

namespace Cs342.Scheduler

open Library

/-! ## Queues that may have lost their marker -/

namespace Queue

/-- Well formed, with nothing behind a marker; there is one only if there `may` be. -/
def Tidy (q : Queue) (may : Prop) : Prop :=
  ∃ q0 ns, q.Repr q0 ns ∧ (∀ b ∈ values ns, b.pid ≠ -1 ∨ b = endMarker ∧ may) ∧
    (values ns).Pairwise fun b _ => b.pid ≠ -1

variable {q q' : Queue} {may : Prop} {q0 : ℤ} {bs : List BurstItem} {b : BurstItem}
  {m : Option BurstItem} {taken : Option BurstItem}

theorem Holds.tidy (h : q.Holds q0 bs m) (hm : ∀ b ∈ m, b = endMarker ∧ may) : q.Tidy may := by
  obtain ⟨ns, hr, hv⟩ := h.repr
  refine ⟨q0, ns, hr, ?_, ?_⟩
  · rw [hv]
    intro b hb
    rcases List.mem_append.mp hb with hb | hb
    · exact .inl (h.bursts_pid b hb)
    · exact .inr (hm b (by simpa using hb))
  · rw [hv, List.pairwise_append]
    refine ⟨List.pairwise_of_forall_mem_list fun b hb _ _ => h.bursts_pid b hb, ?_,
      fun b hb _ _ => h.bursts_pid b hb⟩
    cases m <;> simp

theorem Tidy.holds (h : q.Tidy may) :
    ∃ q0 bs m, q.Holds q0 bs m ∧ ∀ b ∈ m, b = endMarker ∧ may := by
  obtain ⟨q0, ns, hr, hmem, hpair⟩ := h
  rcases List.eq_nil_or_concat' (values ns) with hv | ⟨init, last, hv⟩
  · exact ⟨q0, [], none, ⟨⟨ns, hr, hv⟩, by simp, by simp⟩, by simp⟩
  · rw [hv] at hmem hpair
    have hinit : ∀ b ∈ init, b.pid ≠ -1 := fun b hb =>
      (List.pairwise_append.mp hpair).2.2 b hb last (by simp)
    by_cases hlast : last.pid = -1
    · refine ⟨q0, init, some last, ⟨⟨ns, hr, hv⟩, hinit, by simp [hlast]⟩, fun b hb => ?_⟩
      obtain rfl : last = b := by simpa using hb
      exact (hmem last (by simp)).resolve_left fun h => h hlast
    · refine ⟨q0, init ++ [last], none, ⟨⟨ns, hr, by simpa using hv⟩, fun b hb => ?_, by simp⟩,
        by simp⟩
      rcases List.mem_append.mp hb with hb | hb
      · exact hinit b hb
      · rwa [List.mem_singleton.mp hb]

theorem Tidy.enqueue (h : q.Tidy may) (hb : b.pid ≠ -1) (henq : q.enqueue b = some q') :
    q'.Tidy may := by
  obtain ⟨_, _, _, hh, hm⟩ := h.holds
  obtain ⟨_, hq, hh'⟩ := hh.enqueue hb
  exact Option.some.inj (hq.symm.trans henq) ▸ hh'.tidy hm

theorem Tidy.enqueue_marker (h : q.Tidy False) (henq : q.enqueue endMarker = some q') :
    q'.Tidy True := by
  obtain ⟨_, _, m, hh, hm⟩ := h.holds
  obtain rfl : m = none := Option.eq_none_iff_forall_not_mem.mpr fun b hb => (hm b hb).2
  obtain ⟨_, hq, hh'⟩ := hh.enqueue_marker (m := endMarker) rfl
  refine Option.some.inj (hq.symm.trans henq) ▸ hh'.tidy fun b hb => ?_
  exact ⟨by simpa [eq_comm] using hb, trivial⟩

theorem Tidy.imp {may' : Prop} (h : q.Tidy may) (himp : may → may') : q.Tidy may' := by
  obtain ⟨q0, ns, hr, hmem, hpair⟩ := h
  exact ⟨q0, ns, hr, fun b hb => (hmem b hb).imp_right fun ⟨he, hmay⟩ => ⟨he, himp hmay⟩, hpair⟩

theorem Tidy.head_eq_none (h : q.Tidy may) (hsize : q.size = 0) : q.head = none := by
  obtain ⟨q0, ns, hr, -⟩ := h
  have hns : ns = [] := by simpa [hr.size] using hsize
  rw [hr.head, hns]
  rfl

/-- What is left when one node has been taken out of a queue. -/
theorem Tidy.remove {l r : List (ℕ × BurstItem)} {x : ℕ × BurstItem} {may : Prop}
    (hr : q'.Repr q0 (l ++ r))
    (hmem : ∀ b ∈ values (l ++ x :: r), b.pid ≠ -1 ∨ b = endMarker ∧ may)
    (hpair : (values (l ++ x :: r)).Pairwise fun b _ => b.pid ≠ -1) : q'.Tidy may := by
  have hsub : (values (l ++ r)).Sublist (values (l ++ x :: r)) :=
    ((List.sublist_cons_self x r).append_left l).map Prod.snd
  exact ⟨q0, _, hr, fun b hb => hmem b (hsub.subset hb), hpair.sublist hsub⟩

/-- What a CPU takes out of a queue: possibly the marker, and nothing if the queue is empty. -/
structure Took (q : Queue) (may : Prop) (taken : Option BurstItem) (q' : Queue) : Prop where
  tidy : q'.Tidy may
  burst : ∀ b ∈ taken, b.pid ≠ -1 ∨ b = endMarker
  empty : q.size = 0 → q'.size = 0

/-- One node has been taken out. -/
theorem Took.of_repr {l r : List (ℕ × BurstItem)} {x : ℕ × BurstItem} {may : Prop}
    (h : q.Repr q0 (l ++ x :: r)) (h' : q'.Repr q0 (l ++ r))
    (hmem : ∀ b ∈ values (l ++ x :: r), b.pid ≠ -1 ∨ b = endMarker ∧ may)
    (hpair : (values (l ++ x :: r)).Pairwise fun b _ => b.pid ≠ -1) :
    Took q may (some x.2) q' where
  tidy := .remove h' hmem hpair
  burst b hb := by
    obtain rfl : x.2 = b := by simpa using hb
    exact (hmem x.2 (by simp)).imp_right And.left
  empty hsize := by
    simp only [h.size, List.length_append, List.length_cons] at hsize
    omega

theorem Tidy.dequeue (h : q.Tidy may) (hdeq : q.dequeue = some (taken, q')) :
    Took q may taken q' := by
  obtain ⟨q0, ns, hr, hmem, hpair⟩ := id h
  cases ns with
  | nil =>
    have hhd : q.head = none := hr.head
    obtain ⟨rfl, rfl⟩ : none = taken ∧ q = q' := by simpa [Queue.dequeue, hhd] using hdeq
    exact ⟨h, by simp, id⟩
  | cons x ns =>
    obtain ⟨r, hq, hr'⟩ := hr.dequeue
    obtain ⟨rfl, rfl⟩ : some x.2 = taken ∧ r = q' := by simpa using hq.symm.trans hdeq
    exact .of_repr (l := []) hr hr' hmem hpair

theorem Tidy.dequeueAt (h : q.Tidy may) {pid : ℤ} (hdeq : q.dequeueAt pid = some (taken, q')) :
    Took q may taken q' := by
  obtain ⟨q0, ns, hr, hmem, hpair⟩ := id h
  cases hfind : ns.find? fun c => c.2.pid = pid with
  | none =>
    have hpid : ∀ c ∈ ns, c.2.pid ≠ pid := by simpa using hfind
    obtain ⟨rfl, rfl⟩ : none = taken ∧ q = q' := by
      simpa [hr.dequeueAt_absent hpid] using hdeq
    exact ⟨h, by simp, id⟩
  | some x =>
    obtain ⟨hx, l, m, rfl, hl⟩ := List.find?_eq_some_iff_append.mp hfind
    obtain rfl : x.2.pid = pid := by simpa using hx
    obtain ⟨r, hq, hr'⟩ := Repr.dequeueAt (x := x.2) hr (by simpa using hl)
    obtain ⟨rfl, rfl⟩ : some x.2 = taken ∧ r = q' := by simpa using hq.symm.trans hdeq
    exact .of_repr hr hr' hmem hpair

end Queue

/-! ## Waiting at an empty queue -/

/-- It has found the queue empty, and no signal is on its way. -/
def Pc.isAsleep : Pc → Bool
  | .waitCall | .waiting false => true
  | _ => false

def Pc.isRequeueing : Pc → Bool
  | .requeueing _ => true
  | _ => false

/-- The queue whose marker the producer is about to enqueue. -/
def CvPhase.marking {p : SchedProps} : CvPhase p → Option (Fin p.queuesSize)
  | .entered i .mark => some i
  | _ => none

namespace CvState

variable {p : SchedProps} {s t : CvState p} {c : Fin p.N} {i : Fin p.queuesSize}

/-- No CPU of the queue waits without a signal, or is about to. -/
def Awake (s : CvState p) (i : Fin p.queuesSize) : Prop :=
  ∀ c, p.queue c = i → (s.pc c).isAsleep = false

/-- All CPUs of a queue are awake when it gets its marker, and when a burst is put back after
that. -/
def Noticed (s : CvState p) : CvAction p → Prop
  | .body => ∀ i ∈ s.main.marking, s.Awake i
  | .cpu c _ =>
    (s.pc c).isRequeueing = true → (p.queue c).val < s.marked → s.Awake (p.queue c)
  | _ => True

instance (s : CvState p) (i : Fin p.queuesSize) : Decidable (s.Awake i) :=
  inferInstanceAs (Decidable (∀ c, p.queue c = i → (s.pc c).isAsleep = false))

instance (s : CvState p) : DecidablePred s.Noticed
  | .body => inferInstanceAs (Decidable (∀ i ∈ s.main.marking, s.Awake i))
  | .cpu _ _ => inferInstanceAs (Decidable (_ → _ → s.Awake _))
  | .lock _ | .unlock | .signal _ => .isTrue trivial

/-- The burst in the hands of a CPU before it knows what is left of it. -/
def inHand : Pc → Option BurstItem
  | .picked burst | .running burst => burst
  | _ => none

structure Inv (s : CvState p) : Prop where
  queues : ∀ i, (s.queues i).Tidy (i.val < s.marked)
  todo : ∀ j ∈ s.todo, j.pid ≠ -1
  marked : 0 < s.marked → s.todo = []
  hands : ∀ c, ∀ b ∈ inHand (s.pc c), b.pid ≠ -1 ∨ b = endMarker
  requeueing : ∀ c b, s.pc c = .requeueing b → b.pid ≠ -1
  target : ∀ i a, s.main = .entered i a → s.view.target a = some i
  asleep : ∀ c, (p.queue c).val < s.marked → (s.pc c).isAsleep = true →
    (s.queues (p.queue c)).size = 0

theorem Inv.setPc (h : s.Inv) {l : Pc} (hhand : ∀ b ∈ inHand l, b.pid ≠ -1 ∨ b = endMarker)
    (hrequeueing : ∀ b, l = .requeueing b → b.pid ≠ -1)
    (hasleep : (p.queue c).val < s.marked → l.isAsleep = true →
      (s.queues (p.queue c)).size = 0) : (s.setPc c l).Inv :=
  { h with
    hands := by
      apply (Function.forall_update_iff s.pc fun _ l =>
        ∀ b ∈ inHand l, b.pid ≠ -1 ∨ b = endMarker).mpr
      exact ⟨hhand, fun d _ => h.hands d⟩
    requeueing := by
      apply (Function.forall_update_iff s.pc fun _ l => ∀ b, l = .requeueing b → b.pid ≠ -1).mpr
      exact ⟨hrequeueing, fun d _ => h.requeueing d⟩
    asleep := by
      apply (Function.forall_update_iff s.pc fun d l =>
        (p.queue d).val < s.marked → l.isAsleep = true → (s.queues (p.queue d)).size = 0).mpr
      exact ⟨hasleep, fun d _ => h.asleep d⟩ }

theorem Inv.setOwner (h : s.Inv) (i : Fin p.queuesSize) (thread : Option (Thread p)) :
    (s.setOwner i thread).Inv :=
  { h with }

theorem Inv.setQueue (h : s.Inv) {q : Queue} (hq : q.Tidy (i.val < s.marked))
    (hasleep : ∀ d, p.queue d = i → i.val < s.marked → (s.pc d).isAsleep = true → q.size = 0) :
    (s.setQueue i q).Inv :=
  { h with
    queues := by
      apply (Function.forall_update_iff s.queues fun k q => q.Tidy (k.val < s.marked)).mpr
      exact ⟨hq, fun k _ => h.queues k⟩
    asleep := fun d hlt hd => by
      rcases eq_or_ne (p.queue d) i with rfl | hk
      · simpa [CvState.setQueue] using hasleep d rfl hlt hd
      · simpa [CvState.setQueue, hk] using h.asleep d hlt hd }

theorem Inv.took (h : s.Inv) {taken : Option BurstItem} {q : Queue}
    (ht : (s.queues (p.queue c)).Took ((p.queue c).val < s.marked) taken q) :
    ((s.setQueue (p.queue c) q).setPc c (.picked taken)).Inv := by
  have hq := h.setQueue ht.tidy fun d hd hlt hasleep => ht.empty (by
    have := h.asleep d (hd ▸ hlt) hasleep
    rwa [hd] at this)
  exact hq.setPc (fun b hb => ht.burst b hb) (by simp) (by simp [Pc.isAsleep])

/-- A CPU keeps the invariant. -/
theorem Inv.cpu (hQ : p.alg = .rr → 1 ≤ p.Q) (h : s.Inv) {now : ℤ}
    (hn : s.Noticed (.cpu c now)) (hcpu : s.cpu c now = some t) : t.Inv := by
  have hpc (l : Pc) (h1 : inHand l = none) (h2 : l.isRequeueing = false)
      (h3 : l.isAsleep = false) {s : CvState p} (hs : s.Inv) : (s.setPc c l).Inv :=
    hs.setPc (by simp [h1]) (by rintro b rfl; simp [Pc.isRequeueing] at h2) (by simp [h3])
  unfold CvState.cpu at hcpu
  cases hc : s.pc c with
  | top =>
    simp only [hc, Option.map_eq_some_iff] at hcpu
    obtain ⟨stop, -, rfl⟩ := hcpu
    cases stop <;> exact hpc _ rfl rfl rfl h
  | sizeTest =>
    simp only [hc, Option.some.injEq] at hcpu
    subst hcpu
    split_ifs with hsize
    · exact h.setPc (by simp [inHand]) (by simp) fun _ _ => hsize
    · exact hpc _ rfl rfl rfl h
  | waitCall =>
    simp only [hc, Option.some.injEq] at hcpu
    subst hcpu
    refine (h.setOwner _ _).setPc (by simp [inHand]) (by simp) fun hlt _ => ?_
    exact h.asleep c hlt (by simp [hc, Pc.isAsleep])
  | waiting signalled =>
    simp only [hc] at hcpu
    split_ifs at hcpu
    obtain rfl := Option.some.inj hcpu
    exact hpc _ rfl rfl rfl (h.setOwner _ _)
  | markerTest =>
    simp only [hc, Option.map_eq_some_iff] at hcpu
    obtain ⟨stop, -, rfl⟩ := hcpu
    cases stop <;> exact hpc _ rfl rfl rfl h
  | leave =>
    simp only [hc, Option.some.injEq] at hcpu
    subst hcpu
    exact hpc _ rfl rfl rfl (h.setOwner _ _)
  | take =>
    simp only [hc] at hcpu
    cases halg : p.alg with
    | fcfs | rr =>
      simp only [halg, Option.map_eq_some_iff] at hcpu
      obtain ⟨⟨taken, q⟩, hdeq, rfl⟩ := hcpu
      exact h.took ((h.queues _).dequeue hdeq)
    | sjf =>
      simp only [halg, Option.bind_eq_bind, Option.bind_eq_some_iff] at hcpu
      obtain ⟨head, -, shortest, -, cell, -, hcpu⟩ := hcpu
      obtain rfl := Option.some.inj hcpu
      exact hpc _ rfl rfl rfl h
  | scanned pid =>
    simp only [hc, Option.map_eq_some_iff] at hcpu
    obtain ⟨⟨taken, q⟩, hdeq, rfl⟩ := hcpu
    exact h.took ((h.queues _).dequeueAt hdeq)
  | picked burst =>
    simp only [hc, Option.some.injEq] at hcpu
    subst hcpu
    refine (h.setOwner _ _).setPc (fun b hb => ?_) (by simp) (by simp [Pc.isAsleep])
    exact h.hands c b (by simpa [hc, inHand] using hb)
  | running burst =>
    simp only [hc, Option.bind_eq_bind, Option.bind_eq_some_iff] at hcpu
    obtain ⟨b, rfl, hcpu⟩ := hcpu
    split_ifs at hcpu with hslice
    · obtain rfl := Option.some.inj hcpu
      refine (h.setOwner _ _).setPc (by simp [inHand]) ?_ (by simp [Pc.isAsleep])
      intro b' hb'
      obtain rfl := Pc.requeueing.inj hb'
      -- the marker has no time left, so it is not put back
      refine (h.hands c b (by simp [hc, inHand])).resolve_right ?_
      rintro rfl
      have := hQ hslice.1
      have : (0 : ℤ) > p.Q := hslice.2
      omega
    · obtain ⟨q, -, rfl⟩ := Option.map_eq_some_iff.mp hcpu
      have hfin : Inv { s with finishedQueue := q } := { h with }
      exact hpc _ rfl rfl rfl hfin
  | requeueing burst =>
    simp only [hc, Option.map_eq_some_iff] at hcpu
    obtain ⟨q, hq, rfl⟩ := hcpu
    refine hpc _ rfl rfl rfl (h.setQueue ((h.queues _).enqueue (h.requeueing c burst hc) hq) ?_)
    intro d hd hlt hasleep
    have := hn (by simp [hc, Pc.isRequeueing]) hlt d hd
    simp [this] at hasleep
  | requeued =>
    simp only [hc, Option.some.injEq] at hcpu
    subst hcpu
    exact hpc _ rfl rfl rfl (h.setOwner _ _)
  | exited => simp [hc] at hcpu

/-- The body of a section of the producer. -/
theorem Inv.body (h : s.Inv) (hn : s.Noticed .body) {i : Fin p.queuesSize} {a : Action p}
    {u : State p} (hmain : s.main = .entered i a) (hu : s.view.act a = some u) :
    Inv { s with
      queues := u.queues, todo := u.todo, rrQueueIdx := u.rrQueueIdx, marked := u.marked
      main := .leaving i a } := by
  cases State.main_effect (h.target i a hmain) hu with
  | @produce _ _ _ j todo rr b q htodo hjob henq =>
    have htodo : s.todo = j :: todo := htodo
    have hmarked : s.marked = 0 := by
      by_contra hne
      simp [h.marked (by omega)] at htodo
    have hpid : b.pid ≠ -1 := by
      have := h.todo j (by simp [htodo])
      rwa [← hjob] at this
    have hq : (s.setQueue i q).Inv := h.setQueue ((h.queues i).enqueue hpid henq)
      (by simp [hmarked])
    exact { hq with
      todo := fun k hk => h.todo k (htodo ▸ List.mem_cons_of_mem _ hk)
      marked := fun hpos => absurd hmarked (Nat.pos_iff_ne_zero.mp hpos)
      target := fun k b hk => by simp at hk }
  | @mark q htodo hnext henq =>
    have hawake : s.Awake i := hn i (by simp [hmain, CvPhase.marking])
    have hnext : i.val = s.marked := hnext
    have hq : q.Tidy True := ((h.queues i).imp (by omega)).enqueue_marker henq
    exact { h with
      queues := by
        apply (Function.forall_update_iff s.queues fun k q => q.Tidy (k.val < s.marked + 1)).mpr
        exact ⟨hq.imp fun _ => by omega, fun k _ => (h.queues k).imp Nat.lt_succ_of_lt⟩
      marked := fun _ => htodo
      target := fun k b hk => by simp at hk
      asleep := fun d hlt hd => by
        rcases eq_or_ne (p.queue d) i with hk | hk
        · simp [hawake d hk] at hd
        · have hne : (p.queue d).val ≠ s.marked := fun e => hk (Fin.ext (e.trans hnext.symm))
          have hlt : (p.queue d).val < s.marked + 1 := hlt
          simpa [State.setQueue, hk, view] using h.asleep d (by omega) hd }

theorem Inv.step (hQ : p.alg = .rr → 1 ≤ p.Q) (h : s.Inv) {produces : Bool} {a : CvAction p}
    (hn : s.Noticed a) (hact : s.act produces a = some t) : t.Inv := by
  cases act_effect hact with
  | lock hmain htarget =>
    exact { h with
      target := fun k b hk => by
        obtain ⟨rfl, rfl⟩ := CvPhase.entered.inj hk
        exact htarget }
  | body hmain hu => exact h.body hn hmain hu
  | unlock => exact { h with target := fun k b hk => by split_ifs at hk }
  | signal => exact { h with target := fun k b hk => by simp at hk }
  | @wake i c =>
    have hpc : (s.setPc c (.waiting true)).Inv :=
      h.setPc (by simp [inHand]) (by simp) (by simp [Pc.isAsleep])
    exact { hpc with target := fun k b hk => by simp at hk }
  | cpu hcpu => exact h.cpu hQ hn hcpu

/-! ## Without a file nothing happens -/

/-- The queues are empty, and the CPUs wait or are about to. -/
structure Barren (s : CvState p) : Prop where
  main : s.main = .outside
  queues : ∀ i, (s.queues i).head = none ∧ (s.queues i).size = 0
  pc : ∀ c, s.pc c = .top ∨ s.pc c = .sizeTest ∨ s.pc c = .waitCall ∨ ∃ b, s.pc c = .waiting b

theorem Barren.setPc (h : s.Barren) {l : Pc}
    (hl : l = .top ∨ l = .sizeTest ∨ l = .waitCall ∨ ∃ b, l = .waiting b) : (s.setPc c l).Barren :=
  { h with
    pc := by
      apply (Function.forall_update_iff s.pc fun _ l =>
        l = .top ∨ l = .sizeTest ∨ l = .waitCall ∨ ∃ b, l = .waiting b).mpr
      exact ⟨hl, fun d _ => h.pc d⟩ }

theorem Barren.isRequeueing (h : s.Barren) : (s.pc c).isRequeueing = false := by
  rcases h.pc c with hc | hc | hc | ⟨b, hc⟩ <;> simp [hc, Pc.isRequeueing]

theorem Barren.step (h : s.Barren) {a : CvAction p} (hact : s.act false a = some t) :
    t.Barren := by
  cases act_effect hact with
  | lock hmain htarget hreturns => simp at hreturns
  | body hmain | unlock hmain | signal hmain | wake hmain => simp [h.main] at hmain
  | @cpu c now t hcpu =>
    obtain ⟨hhead, hsize⟩ := h.queues (p.queue c)
    have hown (thread : Option (Thread p)) : (s.setOwner (p.queue c) thread).Barren := { h with }
    rcases h.pc c with hc | hc | hc | ⟨b, hc⟩
    · obtain rfl : s.setPc c .sizeTest = t := by
        simpa [CvState.cpu, hc, Queue.atMarker, hhead] using hcpu
      exact h.setPc (by simp)
    · obtain rfl : s.setPc c .waitCall = t := by
        simpa [CvState.cpu, hc, hsize] using hcpu
      exact h.setPc (by simp)
    · obtain rfl : (s.setOwner (p.queue c) none).setPc c (.waiting false) = t := by
        simpa [CvState.cpu, hc] using hcpu
      exact (hown none).setPc (by simp)
    · simp only [CvState.cpu, hc, Option.ite_none_right_eq_some, Option.some.injEq] at hcpu
      obtain ⟨-, rfl⟩ := hcpu
      exact (hown _).setPc (by simp)

end CvState

namespace CvWorkload

variable {w : CvWorkload} {s : CvState w.toSchedProps}

/-- The producer has returned to `schedule`. -/
def Returned (w : CvWorkload) (s : CvState w.toSchedProps) : Prop :=
  w.produces = false ∨ s.main = .outside ∧ s.todo = [] ∧ s.marked = w.queuesSize

theorem inv_init (h : w.init s) : s.Inv := by
  obtain ⟨⟨hqueues, -, htodo, -, hmarked, -⟩, -, hmain, hpc⟩ := h
  have htodo : s.todo = w.jobs := htodo
  have hmarked : s.marked = 0 := hmarked
  exact {
    queues := fun i => by
      obtain ⟨load, hq⟩ := hqueues i
      have hq : s.queues i = Queue.empty load := hq
      obtain ⟨q0, hh⟩ := (Queue.sound_empty load).1
      exact hq ▸ hh.tidy (by simp)
    todo := fun j hj => by
      have := w.pid_pos j (htodo ▸ hj)
      omega
    marked := by simp [hmarked]
    hands := by simp [hpc, CvState.inHand]
    requeueing := by simp [hpc]
    target := by simp [hmain]
    asleep := by simp [hmarked] }

theorem barren_init (h : w.init s) : s.Barren := by
  obtain ⟨⟨hqueues, -⟩, -, hmain, hpc⟩ := h
  refine ⟨hmain, fun i => ?_, by simp [hpc]⟩
  obtain ⟨load, hq⟩ := hqueues i
  have hq : s.queues i = Queue.empty load := hq
  simp [hq, Queue.empty]

/-- Then a CPU that waits without a signal waits for an empty queue. -/
theorem size_of_waiting (hinv : s.Inv) (hbarren : w.produces = false → s.Barren)
    (hreturned : w.Returned s) {c : Fin w.N} (hc : s.pc c = .waiting false) :
    (s.queues (w.queue c)).size = 0 := by
  rcases hreturned with hw | ⟨-, -, hmarked⟩
  · exact ((hbarren hw).queues _).2
  · refine hinv.asleep c ?_ (by simp [hc, Pc.isAsleep])
    rw [hmarked]
    exact (w.queue c).isLt

end CvWorkload

end Cs342.Scheduler
