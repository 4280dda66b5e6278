import Cs342.Library.ChainFree
import Cs342.Library.Lines
import Cs342.Scheduler.Completion
import Cs342.Scheduler.Report

/-!
# The clean-up of schedule (sched.c)

When the CPUs have been joined, `schedule` frees the node that each ready queue is left with,
and its burst; then it sorts and prints `finishedQueue` and frees that node by node. All other
nodes have been freed by `dequeue` and `dequeue_at`. So nothing leaks if every node that was
allocated for a queue is in its list or freed: no operation drops one.
-/

namespace Cs342.Scheduler

open Library

/-! ## No node outside the list -/

namespace Queue

variable {q q' : Queue} {q0 : ℤ} {ns : List (ℕ × BurstItem)} {b : BurstItem} {pid : ℤ}
  {bursts : List BurstItem} {marker : Option BurstItem}

/-- There are as many nodes as the queue counts, all below the next address. -/
structure Tight (q : Queue) : Prop where
  fresh : ∀ a ∈ q.cells.live, a < q.brk
  card : (q.cells.live.ncard : ℤ) = q.size

/-- The addresses of the nodes from `cur` on, following `next`. -/
def nodesFrom (list : Queue) : ℕ → Option ℕ → List ℕ
  | _, none => []
  | 0, some _ => []
  | n + 1, some cur =>
    match list.cells cur with
    | none => []
    | some c => cur :: list.nodesFrom n c.next

/-- The nodes in the list, from its head. -/
def nodes (list : Queue) : List ℕ := list.nodesFrom list.brk list.head

/-- The live nodes are those in the list, one for each burst and the marker. -/
def NoneLost (q : Queue) : Prop :=
  q.cells.live = {a | a ∈ q.nodes} ∧ q.cells.live.ncard = q.items.length

/-- What `q'` has after one node of `q` has been freed. -/
def FreesOne (q q' : Queue) : Prop :=
  ∃ a ∈ q.cells.live, q'.cells.live = q.cells.live \ {a} ∧ q'.brk = q.brk ∧ q'.size = q.size - 1

theorem tight_empty (load : ℤ) : (Queue.empty load).Tight := by
  have hlive : (Queue.empty load).cells.live = ∅ := by
    ext a
    simp [Heap.live, Queue.empty]
  refine ⟨by simp [hlive], ?_⟩
  rw [hlive, Set.ncard_empty]
  rfl

theorem Tight.finite (h : q.Tight) : q.cells.live.Finite :=
  (Set.finite_lt_nat q.brk).subset fun a ha => h.fresh a ha

theorem Tight.freesOne (h : q.Tight) (hfree : q.FreesOne q') : q'.Tight := by
  obtain ⟨a, ha, hlive, hbrk, hsize⟩ := hfree
  have hcard := Set.ncard_sdiff_singleton_add_one ha h.finite
  have hq := h.card
  refine ⟨fun b hb => ?_, ?_⟩
  · rw [hlive] at hb
    rw [hbrk]
    exact h.fresh b hb.1
  · rw [hlive, hsize]
    omega

/-- `enqueue` allocates one node and frees none. -/
theorem live_enqueue (h : q.enqueue b = some q') :
    q'.cells.live = insert q.brk q.cells.live ∧ q'.brk = q.brk + 1 ∧ q'.size = q.size + 1 := by
  unfold Queue.enqueue at h
  cases hhead : q.head with
  | none =>
    simp only [hhead] at h
    obtain rfl := Option.some.inj h
    exact ⟨Heap.live_write, rfl, rfl⟩
  | some head =>
    simp only [hhead, Option.bind_eq_bind, Option.bind_eq_some_iff] at h
    obtain ⟨headCell, -, tail, -, tailCell, -, h⟩ := h
    split_ifs at h with hmarker hlast
    · simp only [Option.bind_eq_some_iff] at h
      obtain ⟨c1, h1, c2, h2, h⟩ := h
      obtain rfl := Option.some.inj h
      refine ⟨?_, rfl, rfl⟩
      rw [Heap.live_setPrev h2, Heap.live_setNext h1, Heap.live_write]
    · simp only [Option.bind_eq_some_iff] at h
      obtain ⟨prev, -, c1, h1, c2, h2, c3, h3, c4, h4, h⟩ := h
      obtain rfl := Option.some.inj h
      refine ⟨?_, rfl, rfl⟩
      rw [Heap.live_setPrev h4, Heap.live_setNext h3, Heap.live_setPrev h2, Heap.live_setNext h1,
        Heap.live_write]
    · simp only [Option.bind_eq_some_iff] at h
      obtain ⟨c1, h1, c2, h2, h⟩ := h
      obtain rfl := Option.some.inj h
      refine ⟨?_, rfl, rfl⟩
      rw [Heap.live_setPrev h2, Heap.live_setNext h1, Heap.live_write]

theorem freesOne_dequeue (h : q.dequeue = some (some b, q')) : q.FreesOne q' := by
  unfold Queue.dequeue at h
  cases hhead : q.head with
  | none => simp [hhead] at h
  | some cur =>
    simp only [hhead, Option.bind_eq_bind, Option.bind_eq_some_iff] at h
    obtain ⟨c, hcell, h⟩ := h
    rw [if_neg (lnot_ne _)] at h
    refine ⟨cur, Heap.mem_live hcell, ?_⟩
    split at h
    · obtain ⟨list, hlist, h⟩ := Option.bind_eq_some_iff.mp h
      obtain ⟨cells, hcells, rfl⟩ := Option.map_eq_some_iff.mp hlist
      obtain ⟨-, rfl⟩ : some c.data = some b ∧ _ = q' := Prod.mk.inj (Option.some.inj h)
      refine ⟨?_, rfl, rfl⟩
      rw [Heap.live_free, Heap.live_setPrev hcells]
    · obtain ⟨-, rfl⟩ : some c.data = some b ∧ _ = q' := Prod.mk.inj (Option.some.inj h)
      exact ⟨Heap.live_free, rfl, rfl⟩

theorem freesOne_dequeueAt (h : q.dequeueAt pid = some (some b, q')) : q.FreesOne q' := by
  unfold Queue.dequeueAt at h
  cases hhead : q.head with
  | none => simp [hhead] at h
  | some head =>
    simp only [hhead, Option.bind_eq_bind, Option.bind_eq_some_iff] at h
    obtain ⟨found, -, h⟩ := h
    cases found with
    | none => simp at h
    | some cur =>
      simp only at h
      split_ifs at h with hfirst
      · exact freesOne_dequeue h
      · simp only [Option.bind_eq_some_iff] at h
        obtain ⟨c, hcell, prev, -, c1, h1, h⟩ := h
        refine ⟨cur, Heap.mem_live hcell, ?_⟩
        split at h
        · obtain ⟨list, hlist, h⟩ := Option.bind_eq_some_iff.mp h
          obtain ⟨cells, hcells, rfl⟩ := Option.map_eq_some_iff.mp hlist
          obtain ⟨-, rfl⟩ : some c.data = some b ∧ _ = q' := Prod.mk.inj (Option.some.inj h)
          refine ⟨?_, rfl, rfl⟩
          rw [Heap.live_free, Heap.live_setPrev hcells, Heap.live_setNext h1]
        · obtain ⟨-, rfl⟩ : some c.data = some b ∧ _ = q' := Prod.mk.inj (Option.some.inj h)
          refine ⟨?_, rfl, rfl⟩
          rw [Heap.live_free, Heap.live_setNext h1]

theorem Tight.enqueue (h : q.Tight) (henq : q.enqueue b = some q') : q'.Tight := by
  obtain ⟨hlive, hbrk, hsize⟩ := live_enqueue henq
  have hnew : q.brk ∉ q.cells.live := fun hm => lt_irrefl _ (h.fresh _ hm)
  have hcard := Set.ncard_insert_of_notMem hnew h.finite
  have hq := h.card
  refine ⟨fun a ha => ?_, ?_⟩
  · rw [hlive] at ha
    rw [hbrk]
    rcases ha with rfl | ha
    · exact Nat.lt_succ_self _
    · exact Nat.lt_succ_of_lt (h.fresh a ha)
  · rw [hlive, hcard, hsize]
    omega

theorem Tight.pick (h : q.Tight) {alg : SchedulingAlgorithm} (hpick : q.pick alg = some (b, q')) :
    q'.Tight := by
  cases alg with
  | fcfs | rr =>
    simp only [Queue.pick, Option.bind_eq_bind, Option.bind_eq_some_iff] at hpick
    obtain ⟨⟨taken, r⟩, htaken, burst, rfl, hpick⟩ := hpick
    obtain ⟨rfl, rfl⟩ : burst = b ∧ r = q' := Prod.mk.inj (Option.some.inj hpick)
    exact h.freesOne (freesOne_dequeue htaken)
  | sjf =>
    simp only [Queue.pick, Option.bind_eq_bind, Option.bind_eq_some_iff] at hpick
    obtain ⟨head, -, shortest, -, c, -, ⟨taken, r⟩, htaken, burst, rfl, hpick⟩ := hpick
    obtain ⟨rfl, rfl⟩ : burst = b ∧ r = q' := Prod.mk.inj (Option.some.inj hpick)
    exact h.freesOne (freesOne_dequeueAt htaken)

/-- The live addresses are those of the list. -/
theorem Tight.live_eq (h : q.Tight) (hr : q.Repr q0 ns) : q.cells.live = {a | a ∈ addrs ns} := by
  refine hr.chain.live_eq hr.nodup h.finite ?_
  have hq := h.card
  rw [hr.size] at hq
  exact_mod_cast hq

theorem nodesFrom_of_chain {p : Option ℕ} (hc : Chain q.cells p ns none) {n : ℕ}
    (hn : ns.length ≤ n) : q.nodesFrom n (firstAddr none ns) = addrs ns := by
  induction ns generalizing n p with
  | nil => cases n <;> rfl
  | cons c ns ih =>
    cases n with
    | zero => simp at hn
    | succ n =>
      have := ih hc.2 (by simpa using hn)
      simp [nodesFrom, hc.1, this]

theorem Tight.noneLost (h : q.Tight) (hh : q.Holds q0 bursts marker) : q.NoneLost := by
  obtain ⟨ns, hr, hv⟩ := hh.repr
  have hq := h.card
  have hlength : ns.length = (bursts ++ marker.toList).length := by rw [← hv, List.length_map]
  rw [hr.size] at hq
  constructor
  · rw [nodes, hr.head, nodesFrom_of_chain hr.chain hr.length_le, h.live_eq hr]
  · rw [hh.items_eq, ← hlength]
    exact_mod_cast hq

/-- Freeing the list node by node leaves nothing. -/
theorem Tight.freeFrom (h : q.Tight) (hh : q.Holds q0 bursts marker) :
    ∃ cells, q.cells.freeFrom q.brk q.head = some (bursts ++ marker.toList, cells) ∧
      cells.live = ∅ := by
  obtain ⟨ns, hr, hv⟩ := hh.repr
  obtain ⟨cells, hfree, hlive⟩ := hr.chain.freeFrom hr.nodup hr.length_le
  refine ⟨cells, by rw [hr.head, hfree, hv], ?_⟩
  rw [hlive, h.live_eq hr, Set.sdiff_self]

theorem Tight.freeHead (h : q.Tight) (hh : q.Holds q0 [] (some b)) :
    ∃ cells, q.freeHead = some (b, cells) ∧ cells.live = ∅ := by
  obtain ⟨ns, hr, hv⟩ := hh.repr
  obtain ⟨⟨a, x⟩, rfl, rfl⟩ := List.map_eq_singleton_iff.mp hv
  have hhead : q.head = some a := hr.head
  have hlive : q.cells.live = {a} := by
    rw [h.live_eq hr]
    simp
  refine ⟨q.cells.free a, by simp [Queue.freeHead, hhead, hr.chain.1], ?_⟩
  rw [Heap.live_free, hlive, Set.sdiff_self]

/-- `sort` writes to nodes that are there. -/
theorem Tight.sort (h : q.Tight) (hsort : q.sort = some q') : q'.Tight := by
  unfold Queue.sort at hsort
  cases hhead : q.head with
  | none =>
    simp only [hhead] at hsort
    exact Option.some.inj hsort ▸ h
  | some head =>
    simp only [hhead] at hsort
    obtain ⟨cells, hloop, rfl⟩ := Option.map_eq_some_iff.mp hsort
    have hlive : cells.live = q.cells.live := by
      ext a
      have hlinks := congrArg Option.isSome (Heap.links_sortLoop hloop a)
      rw [Option.isSome_map, Option.isSome_map] at hlinks
      simp only [Heap.live, Set.mem_ofPred_eq, hlinks]
    exact ⟨fun a ha => h.fresh a (hlive ▸ ha), by rw [hlive]; exact h.card⟩

end Queue

/-! ## Runs -/

namespace State

variable {p : SchedProps} {s t : State p}

def Tight (s : State p) : Prop := (∀ i, (s.queues i).Tight) ∧ s.finishedQueue.Tight

theorem Tight.setQueue (h : s.Tight) {i : Fin p.queuesSize} {q : Queue} (hq : q.Tight) :
    (s.setQueue i q).Tight :=
  ⟨(Function.forall_update_iff s.queues fun _ q => q.Tight).mpr ⟨hq, fun k _ => h.1 k⟩, h.2⟩

theorem Tight.step (h : s.Tight) (st : Effect s t) : t.Tight := by
  cases st with
  | @produce j todo i rr b q htodo hjob henq => exact h.setQueue ((h.1 i).enqueue henq)
  | @mark i q htodo hnext henq => exact h.setQueue ((h.1 i).enqueue henq)
  | poll | exit => exact h
  | @take c b q hpolling hsize hmark hpick => exact h.setQueue ((h.1 (p.queue c)).pick hpick)
  | @requeue c b b' q hrun hjob henq => exact h.setQueue ((h.1 (p.queue c)).enqueue henq)
  | finish hrun hjob hrem henq => exact ⟨h.1, h.2.enqueue henq⟩

/-- What has been freed in the end, and what is printed before. -/
structure CleanUp where
  queues : List (BurstItem × Heap BurstItem)
  report : Report
  finishedQueue : List BurstItem × Heap BurstItem

/-- The last part of `schedule`. There are no more queues than CPUs, so each is freed; `report`
begins with the same `sort`. -/
def cleanUp (s : State p) : Option CleanUp := do
  let queues ← (List.finRange p.queuesSize).mapM fun i => (s.queues i).freeHead
  let report ← s.finishedQueue.report
  let finishedQueue ← s.finishedQueue.sort
  let finished ← finishedQueue.cells.freeFrom finishedQueue.brk finishedQueue.head
  some ⟨queues, report, finished⟩

end State

namespace Workload

variable {w : Workload} {s : State w.toSchedProps} {r : ℕ → State w.toSchedProps}

theorem tight (h : w.system.Reachable s) : s.Tight := by
  refine h.invariant ?_ fun t u _ ht ⟨a, ha⟩ => ht.step (State.act_cases ha)
  rintro s ⟨hqueues, ⟨load, hfinished⟩, -⟩
  refine ⟨fun i => ?_, hfinished ▸ Queue.tight_empty load⟩
  obtain ⟨load, hi⟩ := hqueues i
  exact hi ▸ Queue.tight_empty load

/-- Each ready queue is left with its marker, which is freed. -/
theorem markers_freed (h : w.system.Reachable s) (hover : w.Over s) :
    ∃ queues, ((List.finRange w.queuesSize).mapM fun i => (s.queues i).freeHead) = some queues ∧
      queues.map Prod.fst = List.replicate w.queuesSize endMarker ∧ ∀ q ∈ queues, q.2.live = ∅ := by
  have hfree (i : Fin w.queuesSize) :
      ∃ cells, (s.queues i).freeHead = some (endMarker, cells) ∧ cells.live = ∅ := by
    have hi : i.val < s.marked := by
      rw [hover.marked]
      exact i.isLt
    have hq := (w.inv h).queues i
    rw [State.markerAt, if_pos hi] at hq
    obtain ⟨q0, hh⟩ := hq
    rw [(w.inv h).bursts_eq_nil hover.left i] at hh
    exact ((tight h).1 i).freeHead hh
  choose cells hcells hlive using hfree
  refine ⟨(List.finRange w.queuesSize).map fun i => (endMarker, cells i), ?_, ?_, ?_⟩
  · refine (mapM_eq_some_iff fun i _ x hx => ?_).mpr ⟨fun i _ => by rw [hcells i]; rfl, rfl⟩
    exact Option.some.inj (hx.symm.trans (hcells i))
  · rw [List.map_map]
    exact List.eq_replicate_iff.mpr ⟨by simp, by simp⟩
  · simp [hlive]

/-- The bursts are freed in the order in which they have been printed. -/
theorem finished_freed (h : w.system.Reachable s) :
    ∃ q cells, s.finishedQueue.sort = some q ∧
      q.cells.freeFrom q.brk q.head = some (Queue.byPid s.finishedQueue.items, cells) ∧
      cells.live = ∅ := by
  obtain ⟨⟨q0, hh⟩, -, -⟩ := holds_finishedQueue h
  obtain ⟨q, hsort, hsorted⟩ := hh.sort
  obtain ⟨cells, hfree, hlive⟩ := ((tight h).2.sort hsort).freeFrom hsorted
  rw [Option.toList_none, List.append_nil] at hfree
  exact ⟨q, cells, hsort, hfree, hlive⟩

theorem report_eq_none_iff (h : w.system.Reachable s) :
    s.finishedQueue.report = none ↔ s.finishedQueue.items = [] := by
  obtain ⟨⟨q0, hh⟩, -, -⟩ := holds_finishedQueue h
  rw [hh.report]
  split_ifs with hempty <;> simp [hempty]

/-- At every moment of a run the live nodes of each queue are those in its list. In a fair run the
clean-up comes, and frees them all: the marker of each ready queue, and each burst once. Without a
burst the program fails before. -/
theorem nothing_leaked (hrun : w.system.Run r) (fair : w.system.Fair r) :
    (∀ m, (∀ i, ((r m).queues i).NoneLost) ∧ (r m).finishedQueue.NoneLost) ∧
    ∃ n, ∀ m, n ≤ m →
      (w.jobs = [] → (r m).cleanUp = none) ∧
      (w.jobs ≠ [] → ∃ done, (r m).cleanUp = some done ∧
        done.queues.map Prod.fst = List.replicate w.queuesSize endMarker ∧
        (∀ q ∈ done.queues, q.2.live = ∅) ∧
        (done.finishedQueue.1.map BurstItem.job).Perm w.jobs ∧
        done.finishedQueue.2.live = ∅) := by
  refine ⟨fun m => ?_, ?_⟩
  · have htight := tight (hrun.reachable m)
    have hinv := w.inv (hrun.reachable m)
    refine ⟨fun i => ?_, ?_⟩
    · obtain ⟨q0, hh⟩ := hinv.queues i
      exact (htight.1 i).noneLost hh
    · obtain ⟨q0, hh⟩ := hinv.finished
      exact htight.2.noneLost hh
  · obtain ⟨n, hover⟩ := eventually_over hrun fair
    refine ⟨n, fun m hm => ?_⟩
    have hs := hrun.reachable m
    have hperm := (hover m hm).finished
    obtain ⟨queues, hqueues, hmarkers, hempty⟩ := markers_freed hs (hover m hm)
    have hunprinted := report_eq_none_iff hs
    refine ⟨fun hnone => ?_, fun hne => ?_⟩
    · rw [hnone, List.perm_nil, List.map_eq_nil_iff] at hperm
      simp [State.cleanUp, hqueues, hunprinted.mpr hperm]
    · have hitems : (r m).finishedQueue.items ≠ [] := by
        intro hitems
        rw [hitems] at hperm
        exact hne hperm.symm.eq_nil
      obtain ⟨report, hreport⟩ := Option.ne_none_iff_exists'.mp (hunprinted.not.mpr hitems)
      obtain ⟨q, cells, hsort, hfree, hlive⟩ := finished_freed hs
      let freed := Queue.byPid (r m).finishedQueue.items
      refine ⟨⟨queues, report, freed, cells⟩, ?_, hmarkers, hempty, ?_, hlive⟩
      · simp [State.cleanUp, hqueues, hreport, hsort, hfree, freed]
      · exact (Queue.byPid_perm.map BurstItem.job).trans hperm

theorem nothing_leaked_pair :
    let r := System.trace State.act pair.start pairActions
    (∀ m, (∀ i, ((r m).queues i).NoneLost) ∧ (r m).finishedQueue.NoneLost) ∧
    ∃ n, ∀ m, n ≤ m →
      (pair.jobs = [] → (r m).cleanUp = none) ∧
      (pair.jobs ≠ [] → ∃ done, (r m).cleanUp = some done ∧
        done.queues.map Prod.fst = List.replicate pair.queuesSize endMarker ∧
        (∀ q ∈ done.queues, q.2.live = ∅) ∧
        (done.finishedQueue.1.map BurstItem.job).Perm pair.jobs ∧
        done.finishedQueue.2.live = ∅) := by
  refine nothing_leaked (System.run_trace pair.init_start _) (System.fair_trace ?_)
  exact quiet_of_all_left (by decide +kernel) (by decide +kernel) (by decide +kernel)

end Workload

end Cs342.Scheduler
