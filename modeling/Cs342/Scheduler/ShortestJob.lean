import Cs342.Scheduler.Conservation

/-!
# The shortest job is taken first

The scan of `ALG_SJF` and the removal that follows it are two walks along the queue, and
only a pid passes from one to the other. The scan moves on to a strictly shorter burst
only, so of equally short ones it stays with the first; it passes over the marker, which
has no time remaining. The pids in a queue are distinct, so the burst that is removed is
the one that was found.
-/

namespace Cs342.Scheduler

open Library

namespace Queue

variable {q q' : Queue} {q0 : ℤ} {b x : BurstItem} {bursts l : List BurstItem}
  {marker : Option BurstItem}

/-- Markers make no difference to the scan. -/
theorem shortestOf_append (hm : ∀ m ∈ marker, m.pid = -1) (s : BurstItem) (l : List BurstItem) :
    shortestOf s (l ++ marker.toList) = shortestOf s l := by
  induction l generalizing s with
  | nil =>
    cases marker with
    | none => rfl
    | some m => simp [shortestOf, hm m rfl]
  | cons c l ih => exact ih _

/-- The scan ends with the first of the shortest bursts. -/
theorem shortestOf_split (s : BurstItem) (hl : ∀ c ∈ l, c.pid ≠ -1) :
    ∃ pre post, s :: l = pre ++ shortestOf s l :: post ∧
      (∀ c ∈ pre, (shortestOf s l).remainingTime < c.remainingTime) ∧
      ∀ c ∈ post, (shortestOf s l).remainingTime ≤ c.remainingTime := by
  induction l generalizing s with
  | nil => exact ⟨[], [], rfl, by simp, by simp⟩
  | cons c l ih =>
    have hc : c.pid ≠ -1 := hl c (by simp)
    have hl' : ∀ d ∈ l, d.pid ≠ -1 := fun d hd => hl d (by simp [hd])
    by_cases hlt : c.remainingTime < s.remainingTime
    · have hscan : shortestOf s (c :: l) = shortestOf c l := by simp [shortestOf, hc, hlt]
      rw [hscan]
      obtain ⟨pre, post, hsplit, hpre, hpost⟩ := ih c hl'
      have hle : (shortestOf c l).remainingTime ≤ c.remainingTime := by
        have hmem : c ∈ pre ++ shortestOf c l :: post := hsplit ▸ List.mem_cons_self
        grind
      refine ⟨s :: pre, post, by rw [hsplit]; rfl, fun d hd => ?_, hpost⟩
      rcases List.mem_cons.mp hd with rfl | hd
      · omega
      · exact hpre d hd
    · have hscan : shortestOf s (c :: l) = shortestOf s l := by simp [shortestOf, hlt]
      rw [hscan]
      obtain ⟨pre, post, hsplit, hpre, hpost⟩ := ih s hl'
      cases pre with
      | nil =>
        -- the scan has not moved: `c` comes behind its result
        obtain ⟨hs, rfl⟩ : s = shortestOf s l ∧ l = post := by simpa using hsplit
        refine ⟨[], c :: l, by rw [← hs]; rfl, by simp, fun d hd => ?_⟩
        rcases List.mem_cons.mp hd with rfl | hd
        · rw [← hs]
          omega
        · exact hpost d hd
      | cons y pre =>
        obtain ⟨rfl, hrest⟩ : s = y ∧ l = pre ++ shortestOf s l :: post := by simpa using hsplit
        have hs := hpre s (by simp)
        refine ⟨s :: c :: pre, post, congrArg (fun r => s :: c :: r) hrest, ?_, hpost⟩
        intro d hd
        grind

/-- What a CPU takes under `ALG_SJF` from a queue whose bursts have distinct pids. -/
theorem Holds.pick_shortest (h : q.Holds q0 (b :: bursts) marker)
    (hnd : ((b :: bursts).map BurstItem.pid).Nodup) :
    ∃ pre x post q', b :: bursts = pre ++ x :: post ∧ q.pick .sjf = some (x, q') ∧
      q'.Holds q0 (pre ++ post) marker ∧ (∀ c ∈ pre, x.remainingTime < c.remainingTime) ∧
      ∀ c ∈ post, x.remainingTime ≤ c.remainingTime := by
  obtain ⟨ns, hr, hv⟩ := h.repr
  obtain ⟨⟨a, y⟩, ns, rfl, hy, hns⟩ := List.map_eq_cons_iff.mp hv
  obtain rfl : y = b := hy
  have hhd : q.head = some a := hr.head
  obtain ⟨a', s', hscan, hcell, hs'⟩ := scanShortest_of_chain hr.chain hr.length_le hr.chain.1
  rw [firstAddr_cons] at hscan
  -- the scan begins at the head, which it compares with itself first
  have hfound : s'.data = shortestOf y bursts := by
    have hns' : values ns = bursts ++ marker.toList := hns
    have hself : shortestOf y (values ((a, y) :: ns)) = shortestOf y (values ns) := by
      simp [shortestOf]
    rw [hs']
    exact hself.trans (by rw [hns', shortestOf_append h.marker_pid])
  obtain ⟨pre, post, hsplit, hpre, hpost⟩ :=
    shortestOf_split y fun c hc => h.bursts_pid c (List.mem_cons_of_mem _ hc)
  rw [hsplit] at h hnd
  have hpid : ∀ c ∈ pre, c.pid ≠ (shortestOf y bursts).pid := by
    rw [List.map_append, List.nodup_append] at hnd
    intro c hc
    exact hnd.2.2 _ (List.mem_map_of_mem hc) _ (by simp)
  obtain ⟨q', hq, hh⟩ := h.dequeueAt hpid
  refine ⟨pre, _, post, q', hsplit, ?_, hh, hpre, hpost⟩
  simp [Queue.pick, hhd, hscan, hcell, hfound, hq]

end Queue

namespace Workload

variable {w : Workload} {s : State w.toSchedProps} {c : Fin w.N} {i : Fin w.queuesSize}

/-- Unless bursts are put back, a queue holds its bursts in the order in which the producer
enqueues them. -/
theorem arrival_order (halg : w.alg ≠ .rr) (h : w.system.Reachable s) (i : Fin w.queuesSize) :
    ((s.queues i).bursts.map BurstItem.job ++ s.todo).Sublist w.jobs := by
  refine h.invariant (I := fun s => ((s.queues i).bursts.map BurstItem.job ++ s.todo).Sublist
    w.jobs) ?_ ?_
  · rintro s ⟨hqueues, -, htodo, -⟩
    obtain ⟨load, hq⟩ := hqueues i
    simp [hq, (Queue.sound_empty load).2, htodo]
  · intro s t hr hs hstep
    obtain ⟨a, ha⟩ := hstep
    have hinv := w.inv hr
    -- a step removes bursts from the queue, or appends the next one of the workload
    have hsub {q : Queue} {k : Fin w.queuesSize} (hq : q.bursts.Sublist (s.queues k).bursts) :
        ((Function.update s.queues k q i).bursts.map BurstItem.job ++ s.todo).Sublist w.jobs := by
      rcases eq_or_ne i k with rfl | hne
      · rw [Function.update_self]
        exact ((hq.map _).append_right _).trans hs
      · rwa [Function.update_of_ne hne]
    cases a with
    | produce arrivalTime seen unset =>
      obtain ⟨j, todo, q, htodo, hbursts, rfl⟩ := hinv.produce_bursts ha
      set k := w.select s.queueZero s.rrQueueIdx seen
      rw [htodo] at hs
      simp only [State.setQueue]
      rcases eq_or_ne i k with rfl | hne
      · rw [Function.update_self, hbursts]
        simpa using hs
      · rw [Function.update_of_ne hne]
        exact ((List.sublist_cons_self j todo).append_left _).trans hs
    | mark =>
      obtain ⟨k, q, hbursts, rfl⟩ := hinv.mark_bursts ha
      exact hsub (hbursts ▸ .refl _)
    | cpu c now =>
      cases State.cpu_effect ha with
      | poll | exit | finish => exact hs
      | @take b q hpolling hsize hmark hpick =>
        obtain ⟨pre, post, hsplit, -, hbursts⟩ := (hinv.queues (w.queue c)).pick hsize hmark hpick
        refine hsub ?_
        rw [hbursts, hsplit]
        exact (List.sublist_cons_self b post).append_left pre
      | requeue hrun hslice => exact absurd hslice.1 halg

/-- Under `ALG_SJF` a CPU that does not see the marker takes, of the bursts in the queue, the
first of the shortest in the order of the workload; the others stay as they are. -/
theorem shortest_job_taken (halg : w.alg = .sjf) (h : w.system.Reachable s)
    (hsize : 0 < (s.queues i).size) (hmark : (s.queues i).atMarker = some false) :
    ∃ pre x post q', (s.queues i).pick w.alg = some (x, q') ∧
      (s.queues i).bursts = pre ++ x :: post ∧
      ((s.queues i).bursts.map BurstItem.job).Sublist w.jobs ∧
      (∀ b ∈ pre, x.remainingTime < b.remainingTime) ∧
      (∀ b ∈ post, x.remainingTime ≤ b.remainingTime) ∧ 1 ≤ x.pid ∧
      (s.queues i).items = pre ++ x :: post ++ (State.markerAt s.marked i).toList ∧
      q'.items = pre ++ post ++ (State.markerAt s.marked i).toList := by
  have horder := arrival_order (by simp [halg]) h i
  have hnd : ((s.queues i).bursts.map BurstItem.pid).Nodup := w.nodup_pids h (.ready i)
  obtain ⟨q0, hq⟩ := (w.inv h).queues i
  have hne : (s.queues i).bursts ≠ [] := by
    intro hnil
    have hatMarker := hq.atMarker_eq
    rw [hnil] at hq hatMarker
    have hsize_eq := hq.size_eq
    cases hm : State.markerAt s.marked i with
    | none => simp [hm] at hsize_eq; omega
    | some m => simp [hmark, hm] at hatMarker
  obtain ⟨b, bursts, hbursts⟩ := List.exists_cons_of_ne_nil hne
  have hitems := hq.items_eq
  rw [hbursts] at hq hnd
  obtain ⟨pre, x, post, q', hsplit, hpick, hh, hpre, hpost⟩ := hq.pick_shortest hnd
  have hjobs : ((s.queues i).bursts.map BurstItem.job).Sublist w.jobs :=
    (List.sublist_append_left _ _).trans horder
  have hpid : x.job ∈ w.jobs := by
    refine hjobs.subset (List.mem_map_of_mem ?_)
    simp [hbursts, hsplit]
  refine ⟨pre, x, post, q', by rw [halg, hpick], hbursts.trans hsplit, hjobs, hpre, hpost,
    w.pid_pos _ hpid, ?_, hh.items_eq⟩
  rw [hitems, hbursts, hsplit]

/-- One CPU, two bursts of the same length behind a longer one. -/
def threeJobs : Workload where
  N := 1
  Q := 0
  sap := .single
  qs := .na
  alg := .sjf
  source := .file
  jobs := [⟨1, 5⟩, ⟨2, 3⟩, ⟨3, 3⟩]
  N_pos := Nat.zero_lt_one
  Q_pos := by simp
  pid_pos := by decide
  pid_nodup := by decide

def threeActions : List (Action threeJobs.toSchedProps) :=
  let seen : Seen threeJobs.queuesSize := ⟨0, fun _ => 0, fun _ => 0⟩
  [.produce 0 seen 0, .produce 1 seen 0, .produce 2 seen 0, .mark]

/-- The three bursts are in the queue, with the marker behind them. -/
def threeQueued : State threeJobs.toSchedProps :=
  (System.perform State.act threeActions threeJobs.start).get (by decide +kernel)

theorem shortest_job_taken_threeQueued :
    let q := threeQueued.queues (threeJobs.queue (Fin.last 0))
    ∃ pre x post q', q.pick threeJobs.alg = some (x, q') ∧ q.bursts = pre ++ x :: post ∧
      (q.bursts.map BurstItem.job).Sublist threeJobs.jobs ∧
      (∀ b ∈ pre, x.remainingTime < b.remainingTime) ∧
      (∀ b ∈ post, x.remainingTime ≤ b.remainingTime) ∧ 1 ≤ x.pid ∧
      q.items = pre ++ x :: post ++ [endMarker] ∧ q'.items = pre ++ post ++ [endMarker] :=
  shortest_job_taken (w := threeJobs) (s := threeQueued)
    (i := threeJobs.queue (Fin.last 0)) rfl
    (threeJobs.reachable_of_perform (Option.some_get _).symm) (by decide +kernel)
    (by decide +kernel)

end Workload

end Cs342.Scheduler
