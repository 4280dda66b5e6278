import Mathlib.Data.Int.Interval
import Cs342.Library.ChainSort
import Cs342.Scheduler.Conservation

/-!
# The final report (sched.c, readyqueue.c)

In the end `schedule` sorts `finishedQueue` by pid, prints a line for each burst and then
the average of the turnaround times. The sum is an `int`, and so is every waiting time.
The average divides by the number of bursts, and fails if there are none.

A report is what is printed, without its layout.
-/

namespace Cs342.Scheduler

open Library

/-! ## Sorting by pid -/

namespace Queue

/-- What `sort` does with the bursts of two nodes. -/
def exchangeByPid (x y : BurstItem) : BurstItem × BurstItem :=
  if x.pid > y.pid then (y, x) else (x, y)

/-- The loops make no more rounds than there are nodes. -/
def sort (q : Queue) : Option Queue :=
  match q.head with
  | none => some q
  | some head =>
    (Heap.sortLoop exchangeByPid q.brk (some head) q.cells).map fun cells =>
      { q with cells := cells }

/-- The bursts in the order of their pids. -/
def byPid (bursts : List BurstItem) : List BurstItem :=
  exchangeSort (fun x y => x.pid < y.pid) bursts.length bursts

variable {q : Queue} {q0 : ℤ} {ns : List (ℕ × BurstItem)} {bursts : List BurstItem}

theorem byPid_perm : (byPid bursts).Perm bursts := exchangeSort_perm

theorem length_byPid : (byPid bursts).length = bursts.length := byPid_perm.length_eq

theorem byPid_ascending (h : (bursts.map BurstItem.pid).Nodup) :
    (byPid bursts).Pairwise fun x y => x.pid < y.pid := by
  have hsorted : (byPid bursts).Pairwise fun x y => ¬ y.pid < x.pid :=
    exchangeSort_sorted (fun x y => lt_asymm) (fun x y z hxy hyz => by omega) le_rfl
  have hdistinct : (byPid bursts).Pairwise fun x y => x.pid ≠ y.pid :=
    List.pairwise_map.mp ((byPid_perm.map BurstItem.pid).nodup_iff.mpr h)
  exact hsorted.imp₂ (fun x y hle hne => lt_of_le_of_ne (not_lt.mp hle) hne) hdistinct

/-- The nodes `ns` are the queue, whatever its counters say. -/
structure Linked (q : Queue) (ns : List (ℕ × BurstItem)) : Prop where
  chain : Chain q.cells none ns none
  nodup : (addrs ns).Nodup
  head : q.head = firstAddr none ns
  tail : q.tail = lastAddr none ns
  fresh : ∀ a ∈ addrs ns, a < q.brk

theorem Repr.linked (h : q.Repr q0 ns) : q.Linked ns :=
  ⟨h.chain, h.nodup, h.head, h.tail, h.fresh⟩

theorem Linked.items_eq (h : q.Linked ns) : q.items = values ns := by
  rw [items, h.head, walk_of_chain h.chain (length_le_of_lt h.nodup h.fresh)]

theorem addrs_sorted : addrs ((addrs ns).zip (byPid (values ns))) = addrs ns :=
  addrs_zip (by simp [length_byPid])

theorem values_sorted : values ((addrs ns).zip (byPid (values ns))) = byPid (values ns) :=
  values_zip (by simp [length_byPid])

/-- The nodes stay where they are, and their bursts are in the order of the pids. -/
theorem Linked.sort (h : q.Linked ns) :
    ∃ cells, q.sort = some { q with cells := cells } ∧
      Linked { q with cells := cells } ((addrs ns).zip (byPid (values ns))) ∧
      ∀ a, (cells a).map Cell.links = (q.cells a).map Cell.links := by
  cases ns with
  | nil =>
    have hhead : q.head = none := h.head
    have hsort : q.sort = some q := by simp [Queue.sort, hhead]
    exact ⟨q.cells, hsort, h, fun _ => rfl⟩
  | cons c rest =>
    obtain ⟨a, x⟩ := c
    have hhead : q.head = some a := h.head
    have hchain : Chain q.cells none ([] ++ (a, x) :: rest) none := h.chain
    obtain ⟨g, hg, hcg⟩ := hchain.sortLoop (f := exchangeByPid) h.nodup
      (Nat.lt_of_succ_le (length_le_of_lt h.nodup h.fresh))
    have hvalues : passes exchangeByPid (rest.length + 1) (x :: values rest) =
        byPid (values ((a, x) :: rest)) := by
      simp [byPid, ← passes_exchange]
      rfl
    rw [hvalues, List.nil_append] at hcg
    refine ⟨g, by simp [Queue.sort, hhead, hg], ?_, Heap.links_sortLoop hg⟩
    exact {
      chain := hcg
      nodup := by rw [addrs_sorted]; exact h.nodup
      head := h.head.trans (firstAddr_congr addrs_sorted.symm none)
      tail := h.tail.trans (lastAddr_congr addrs_sorted.symm none)
      fresh := by rw [addrs_sorted]; exact h.fresh }

/-- A doubly linked list from `head` to `tail`. -/
def WellFormed (q : Queue) : Prop := ∃ ns, q.Linked ns

/-- `sort` ends and changes nothing but which burst lies in which node; along the list there are
the same bursts as before, in ascending order of their pids. -/
theorem sort_in_place (h : q.WellFormed) (hpids : (q.items.map BurstItem.pid).Nodup) :
    ∃ q', q.sort = some q' ∧ q'.WellFormed ∧
      (∀ a, (q'.cells a).map Cell.links = (q.cells a).map Cell.links) ∧
      q'.head = q.head ∧ q'.tail = q.tail ∧ q'.size = q.size ∧ q'.queueLoad = q.queueLoad ∧
      q'.items.Perm q.items ∧ q'.items.Pairwise fun x y => x.pid < y.pid := by
  obtain ⟨ns, h⟩ := h
  obtain ⟨cells, hsort, hlinked, hlinks⟩ := h.sort
  have hitems := hlinked.items_eq.trans values_sorted
  rw [h.items_eq] at hpids
  refine ⟨_, hsort, ⟨_, hlinked⟩, hlinks, rfl, rfl, rfl, rfl, ?_, ?_⟩
  · rw [hitems, h.items_eq]
    exact byPid_perm
  · rw [hitems]
    exact byPid_ascending hpids

/-- Burst 2 in front of burst 1. -/
def twoBehindOne : Queue where
  cells a :=
    if a = 0 then some ⟨⟨2, 5, 0, 0, 8, 8, 0⟩, some 1, none⟩
    else if a = 1 then some ⟨⟨1, 3, 0, 0, 3, 3, 0⟩, none, some 0⟩
    else none
  brk := 2
  head := some 0
  tail := some 1
  size := 2
  queueLoad := 8

theorem wellFormed_twoBehindOne : twoBehindOne.WellFormed :=
  ⟨[(0, ⟨2, 5, 0, 0, 8, 8, 0⟩), (1, ⟨1, 3, 0, 0, 3, 3, 0⟩)],
    ⟨rfl, rfl, trivial⟩, by decide, rfl, rfl, by decide⟩

theorem sort_in_place_twoBehindOne :
    ∃ q', twoBehindOne.sort = some q' ∧ q'.WellFormed ∧
      (∀ a, (q'.cells a).map Cell.links = (twoBehindOne.cells a).map Cell.links) ∧
      q'.head = some 0 ∧ q'.tail = some 1 ∧ q'.size = 2 ∧ q'.queueLoad = 8 ∧
      q'.items.Perm twoBehindOne.items ∧ q'.items.Pairwise fun x y => x.pid < y.pid :=
  sort_in_place wellFormed_twoBehindOne (by decide +kernel)

theorem Repr.sort (h : q.Repr q0 ns) :
    ∃ q', q.sort = some q' ∧ q'.Repr q0 ((addrs ns).zip (byPid (values ns))) := by
  obtain ⟨cells, hsort, hl, -⟩ := h.linked.sort
  have hload : ((byPid (values ns)).map BurstItem.burstLength).sum =
      ((values ns).map BurstItem.burstLength).sum := (byPid_perm.map _).sum_eq
  refine ⟨_, hsort, hl.chain, hl.nodup, hl.head, hl.tail, hl.fresh, ?_, ?_⟩
  · simp [h.size, length_byPid]
  · rw [values_sorted, hload, h.load]

/-- `sort` keeps what the queue holds, in the order of the pids. -/
theorem Holds.sort (h : q.Holds q0 bursts none) :
    ∃ q', q.sort = some q' ∧ q'.Holds q0 (byPid bursts) none := by
  obtain ⟨ns, hr, hv⟩ := h.repr
  rw [Option.toList_none, List.append_nil] at hv
  obtain ⟨q', hq, hr'⟩ := hr.sort
  have hlength : (byPid (values ns)).length = (addrs ns).length := by
    simp [length_byPid]
  refine ⟨q', hq, ⟨_, hr', ?_⟩, fun b hb => h.bursts_pid b (byPid_perm.mem_iff.mp hb), by simp⟩
  rw [values_zip hlength, hv, Option.toList_none, List.append_nil]

end Queue

/-! ## What is printed -/

structure ReportLine where
  pid : ℤ
  cpu : ℤ
  burstlen : ℤ
  arv : ℤ
  finish : ℤ
  waitingtime : ℤ
  turnaround : ℤ
  deriving DecidableEq, Repr

structure Report where
  lines : List ReportLine
  average : ℤ
  deriving DecidableEq, Repr

/-- The line of a burst with this waiting time. -/
def BurstItem.line (b : BurstItem) (waitingtime : ℤ) : ReportLine :=
  ⟨b.pid, b.processorId, b.burstLength, b.arrivalTime, b.finishTime, waitingtime, b.turnaroundTime⟩

namespace Queue

/-- The loop over the nodes from `cur` on: the lines, and the sum at the end. -/
def printFrom (q : Queue) : ℕ → Option ℕ → ℤ → Option (List ReportLine × ℤ)
  | _, none, sum => some ([], sum)
  | 0, some _, _ => none
  | n + 1, some cur, sum => do
    let c ← q.cells cur
    let b := c.data
    let (lines, sum) ← q.printFrom n c.next (toInt (sum + b.turnaroundTime))
    some (b.line (toInt (b.turnaroundTime - b.burstLength)) :: lines, sum)

/-- The part of `schedule` from `sort` on. A division by zero has no result. -/
def report (finishedQueue : Queue) : Option Report := do
  let finishedQueue ← finishedQueue.sort
  let (lines, sum) ← finishedQueue.printFrom finishedQueue.brk finishedQueue.head 0
  if finishedQueue.size = 0 then none
  else some ⟨lines, sum.tdiv finishedQueue.size⟩

variable {q : Queue} {q0 : ℤ} {ns : List (ℕ × BurstItem)} {bursts : List BurstItem}

theorem printFrom_of_chain {p : Option ℕ} (hc : Chain q.cells p ns none) {n : ℕ}
    (hn : ns.length ≤ n) (sum : ℤ) :
    q.printFrom n (firstAddr none ns) (toInt sum) = some
      ((values ns).map fun b => b.line (toInt (b.turnaroundTime - b.burstLength)),
        toInt (sum + ((values ns).map BurstItem.turnaroundTime).sum)) := by
  induction ns generalizing n p sum with
  | nil => cases n <;> simp [printFrom]
  | cons c ns ih =>
    cases n with
    | zero => simp at hn
    | succ n =>
      have hsum : toInt (toInt sum + c.2.turnaroundTime) = toInt (sum + c.2.turnaroundTime) := by
        simp [toInt]
      have := ih hc.2 (by simpa using hn) (sum + c.2.turnaroundTime)
      simp [printFrom, hc.1, hsum, this, add_assoc]

/-- What `schedule` prints of these bursts. -/
theorem Holds.report (h : q.Holds q0 bursts none) :
    q.report = if bursts = [] then none else some
      ⟨(byPid bursts).map fun b => b.line (toInt (b.turnaroundTime - b.burstLength)),
        (toInt (bursts.map BurstItem.turnaroundTime).sum).tdiv bursts.length⟩ := by
  obtain ⟨q', hq, hh⟩ := h.sort
  obtain ⟨ns, hr, hv⟩ := hh.repr
  rw [Option.toList_none, List.append_nil] at hv
  have hprint := printFrom_of_chain hr.chain hr.length_le 0
  have hsum : ((byPid bursts).map BurstItem.turnaroundTime).sum =
      (bursts.map BurstItem.turnaroundTime).sum := (byPid_perm.map _).sum_eq
  rw [← hr.head, hv, zero_add, hsum] at hprint
  have hzero : toInt 0 = 0 := rfl
  have hsize : q'.size = bursts.length := by simp [hh.size_eq, length_byPid]
  rw [hzero] at hprint
  simp [Queue.report, hq, hprint, hsize]

end Queue

/-! ## What the report should be -/

namespace Report

/-- Each burst has its line, in ascending order of the pids, and the average is that of the
turnaround times. -/
structure Describes (r : Report) (bursts : List BurstItem) : Prop where
  complete : r.lines.Perm (bursts.map fun b => b.line (b.turnaroundTime - b.burstLength))
  ascending : r.lines.Pairwise fun x y => x.pid < y.pid
  average : r.average = (bursts.map BurstItem.turnaroundTime).sum.tdiv bursts.length

end Report

/-- A quotient shows whether the dividend has been cut down to an `int`. -/
theorem tdiv_toInt_iff {x n : ℤ} (hpos : 0 < n) (hn : n < 2 ^ 31) :
    (toInt x).tdiv n = x.tdiv n ↔ IsInt x := by
  refine ⟨fun h => ?_, fun h => by rw [h.toInt_eq]⟩
  have hwrap : toInt x = x - 2 ^ 32 * ((x + 2 ^ 31) / 2 ^ 32) := by
    unfold toInt
    simp only [Int.bmod]
    omega
  have hx := Int.mul_tdiv_add_tmod x n
  have hint := Int.mul_tdiv_add_tmod (toInt x) n
  have hlo := Int.lt_tmod_of_pos x hpos
  have hhi := Int.tmod_lt_of_pos x hpos
  have hlo' := Int.lt_tmod_of_pos (toInt x) hpos
  have hhi' := Int.tmod_lt_of_pos (toInt x) hpos
  -- the dividends have the same quotient, so they are less than 2 ^ 32 apart
  rw [h] at hint
  rw [← toInt_eq_self_iff]
  omega

variable {q : Queue} {q0 : ℤ} {bursts : List BurstItem}

/-- There are fewer bursts than an `int` has positive values. -/
theorem length_lt_of_pid (hnd : (bursts.map BurstItem.pid).Nodup)
    (hpid : ∀ b ∈ bursts, 1 ≤ b.pid ∧ b.pid < 2 ^ 31) : bursts.length < 2 ^ 31 := by
  have hsub : (bursts.map BurstItem.pid).toFinset ⊆ Finset.Icc 1 (2 ^ 31 - 1) := by
    intro x hx
    obtain ⟨b, hb, rfl⟩ := List.mem_map.mp (List.mem_toFinset.mp hx)
    have := hpid b hb
    exact Finset.mem_Icc.mpr (by omega)
  have hcard := Finset.card_le_card hsub
  rw [List.toFinset_card_of_nodup hnd, List.length_map, Int.card_Icc] at hcard
  omega

/-- The report is as it should be exactly when there is a burst and neither the sum of the
turnaround times nor a waiting time overflows an `int`. -/
theorem Queue.Holds.describes_iff (h : q.Holds q0 bursts none)
    (hnd : (bursts.map BurstItem.pid).Nodup)
    (hpid : ∀ b ∈ bursts, 1 ≤ b.pid ∧ b.pid < 2 ^ 31) :
    (∃ r, q.report = some r ∧ r.Describes bursts) ↔
      bursts ≠ [] ∧ IsInt (bursts.map BurstItem.turnaroundTime).sum ∧
        ∀ b ∈ bursts, IsInt (b.turnaroundTime - b.burstLength) := by
  rw [h.report]
  by_cases hempty : bursts = []
  · simp [hempty]
  have hlength : 0 < bursts.length := List.length_pos_iff.mpr hempty
  have hbound := length_lt_of_pid hnd hpid
  have haverage := tdiv_toInt_iff (x := (bursts.map BurstItem.turnaroundTime).sum)
    (n := bursts.length) (by omega) (by omega)
  rw [if_neg hempty, and_iff_right hempty]
  constructor
  · rintro ⟨r, hr, hdesc⟩
    obtain rfl := Option.some.inj hr
    refine ⟨haverage.mp hdesc.average, fun b hb => ?_⟩
    -- the line with the pid of the burst is its own
    have hline := hdesc.complete.mem_iff.mpr (List.mem_map_of_mem hb)
    obtain ⟨c, hc, heq⟩ := List.mem_map.mp hline
    have hpids : c.pid = b.pid := congrArg ReportLine.pid heq
    obtain rfl : c = b := List.inj_on_of_nodup_map hnd (Queue.byPid_perm.mem_iff.mp hc) hb hpids
    exact toInt_eq_self_iff.mp (congrArg ReportLine.waitingtime heq)
  · rintro ⟨hsum, hwaiting⟩
    refine ⟨_, rfl, ?_, ?_, haverage.mpr hsum⟩
    · have hlines : (Queue.byPid bursts).map
          (fun b => b.line (toInt (b.turnaroundTime - b.burstLength))) =
          (Queue.byPid bursts).map fun b => b.line (b.turnaroundTime - b.burstLength) :=
        List.map_congr_left fun b hb => by
          rw [(hwaiting b (Queue.byPid_perm.mem_iff.mp hb)).toInt_eq]
      rw [hlines]
      exact Queue.byPid_perm.map _
    · exact List.pairwise_map.mpr (Queue.byPid_ascending hnd)

/-! ## The report of a run -/

namespace Workload

variable {w : Workload} {s : State w.toSchedProps}

/-- At any moment `finishedQueue` holds bursts of the workload. -/
theorem holds_finishedQueue (h : w.system.Reachable s) :
    (∃ q0, s.finishedQueue.Holds q0 s.finishedQueue.items none) ∧
      (s.finishedQueue.items.map BurstItem.pid).Nodup ∧
      ∀ b ∈ s.finishedQueue.items, b.job ∈ w.jobs := by
  have hinv := w.inv h
  rw [hinv.finished_items]
  refine ⟨hinv.finished, w.nodup_pids h .finished, fun b hb => ?_⟩
  have hplace : b ∈ s.burstsAt .finished := hb
  exact job_mem h hplace

/-- Of what a run has finished the report is complete, in the order of the pids and right if and
only if at least one burst is finished and neither the sum of the turnaround times nor a waiting
time overflows an `int`. -/
theorem report_describes_iff (hpid : ∀ j ∈ w.jobs, j.pid < 2 ^ 31) (h : w.system.Reachable s) :
    (∃ r, s.finishedQueue.report = some r ∧ r.Describes s.finishedQueue.items) ↔
      s.finishedQueue.items ≠ [] ∧
        IsInt (s.finishedQueue.items.map BurstItem.turnaroundTime).sum ∧
        ∀ b ∈ s.finishedQueue.items, IsInt (b.turnaroundTime - b.burstLength) := by
  obtain ⟨⟨q0, hh⟩, hnd, hjobs⟩ := holds_finishedQueue h
  exact hh.describes_iff hnd fun b hb => ⟨w.pid_pos b.job (hjobs b hb), hpid b.job (hjobs b hb)⟩

theorem report_describes_iff_pairEnd :
    (∃ r, pairEnd.finishedQueue.report = some r ∧ r.Describes pairEnd.finishedQueue.items) ↔
      pairEnd.finishedQueue.items ≠ [] ∧
        IsInt (pairEnd.finishedQueue.items.map BurstItem.turnaroundTime).sum ∧
        ∀ b ∈ pairEnd.finishedQueue.items, IsInt (b.turnaroundTime - b.burstLength) :=
  report_describes_iff (by decide) reachable_pairEnd

example : pairEnd.finishedQueue.report =
    some ⟨[⟨1, 0, 3, 0, 3, 0, 3⟩, ⟨2, 1, 1, 1, 2, 0, 1⟩], 2⟩ := by decide +kernel

theorem pid_pos_nil : ∀ j ∈ ([] : List Job), 1 ≤ j.pid := fun _ hj => absurd hj List.not_mem_nil

/-- No bursts at all. -/
def noBursts : Workload := { pair with jobs := [], pid_pos := pid_pos_nil, pid_nodup := .nil }

/-- Both CPUs see the marker at once. -/
def noBurstsActions : List (Action noBursts.toSchedProps) :=
  let cpu0 : Fin 2 := Fin.rev (Fin.last 1)
  let cpu1 : Fin 2 := Fin.last 1
  [.mark, .cpu cpu0 0, .cpu cpu1 0]

def noBurstsEnd : State noBursts.toSchedProps :=
  (System.perform State.act noBurstsActions noBursts.start).get (by decide +kernel)

theorem report_fails_noBurstsEnd :
    noBursts.system.Reachable noBurstsEnd ∧ noBurstsEnd.todo = [] ∧
      noBurstsEnd.marked = noBursts.queuesSize ∧ (∀ c, noBurstsEnd.cpus c = .exited) ∧
      noBurstsEnd.finishedQueue.report = none :=
  ⟨noBursts.reachable_of_perform (Option.some_get _).symm, by decide +kernel, by decide +kernel,
    by decide +kernel, by decide +kernel⟩

end Workload

end Cs342.Scheduler
