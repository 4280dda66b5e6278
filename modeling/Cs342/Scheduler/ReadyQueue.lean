import Mathlib.Algebra.BigOperators.Group.List.Basic
import Mathlib.Algebra.Group.Int.Defs
import Mathlib.Tactic.Ring
import Cs342.Library.Chain

/-!
# The ready queue (readyqueue.c)

A queue of bursts as a doubly linked list of nodes. Each queue has its own heap of
nodes; `malloc` hands out `brk`, an address never used before, and `free` empties
the cell. A function answers `none` where the C code would follow a null pointer or
one to a freed node, and a result of `none` inside is the return value `NULL`.

A marker, a burst with pid -1, stays last: `enqueue` places other bursts in front
of it. `Holds` says which bursts and which marker a queue holds; the four theorems
about it are all that the scheduler needs of the pointers.
-/

namespace Cs342.Scheduler

open Library

structure BurstItem where
  pid : ℤ
  burstLength : ℤ
  arrivalTime : ℤ
  remainingTime : ℤ
  finishTime : ℤ
  turnaroundTime : ℤ
  processorId : ℤ
  deriving DecidableEq, Repr

structure Queue where
  cells : Heap BurstItem
  brk : ℕ
  head : Option ℕ
  tail : Option ℕ
  size : ℤ
  queueLoad : ℤ

namespace Queue

def enqueue (list : Queue) (value : BurstItem) : Option Queue := do
  let newNode := list.brk
  let list := { list with
    cells := list.cells.write newNode ⟨value, none, none⟩
    brk := newNode + 1
    size := list.size + 1
    queueLoad := list.queueLoad + value.burstLength }
  match list.head with
  | none => some { list with head := some newNode, tail := some newNode }
  | some head =>
    let headCell ← list.cells head
    let tail ← list.tail
    let tailCell ← list.cells tail
    if headCell.data.pid = -1 then
      let cells ← list.cells.setNext newNode (some tail)
      let cells ← cells.setPrev tail (some newNode)
      some { list with cells := cells, head := some newNode }
    else if tailCell.data.pid = -1 then
      let prev ← tailCell.prev
      let cells ← list.cells.setNext prev (some newNode)
      let cells ← cells.setPrev newNode (some prev)
      let cells ← cells.setNext newNode (some tail)
      let cells ← cells.setPrev tail (some newNode)
      some { list with cells := cells }
    else
      let cells ← list.cells.setNext tail (some newNode)
      let cells ← cells.setPrev newNode (some tail)
      some { list with cells := cells, tail := some newNode }

/-- C's `!x`. -/
def lnot (x : ℤ) : ℤ := if x = 0 then 1 else 0

def dequeue (list : Queue) : Option (Option BurstItem × Queue) := do
  match list.head with
  | none => some (none, list)
  | some cur =>
    let c ← list.cells cur
    -- the source compares the truth value `!pid` with -1
    if lnot c.data.pid = -1 then some (none, list)
    else
      let list ← match c.next with
        | some head =>
          (list.cells.setPrev head none).map fun cells =>
            { list with cells := cells, head := some head }
        | none => some { list with head := none, tail := none }
      some (some c.data, { list with
        cells := list.cells.free cur
        size := list.size - 1
        queueLoad := list.queueLoad - c.data.burstLength })

/-- The scan of `dequeue_at`: the first node from `cur` on whose burst has the pid. A chain
has at most `brk` nodes, so a scan that needs more rounds runs in a cycle. -/
def scanPid (list : Queue) (pid : ℤ) : ℕ → Option ℕ → Option (Option ℕ)
  | _, none => some none
  | 0, some _ => none
  | n + 1, some cur =>
    match list.cells cur with
    | none => none
    | some c => if c.data.pid = pid then some (some cur) else list.scanPid pid n c.next

def dequeueAt (list : Queue) (pid : ℤ) : Option (Option BurstItem × Queue) := do
  match list.head with
  | none => some (none, list)
  | some head =>
    match ← list.scanPid pid list.brk (some head) with
    | none => some (none, list)
    | some cur =>
      if cur = head then list.dequeue
      else
        let c ← list.cells cur
        let prev ← c.prev
        let cells ← list.cells.setNext prev c.next
        let list ← match c.next with
          | some next =>
            (cells.setPrev next (some prev)).map fun cells => { list with cells := cells }
          | none => some { list with cells := cells, tail := some prev }
        some (some c.data, { list with
          cells := list.cells.free cur
          size := list.size - 1
          queueLoad := list.queueLoad - c.data.burstLength })

/-- The bursts from `cur` on, following `next`. -/
def walk (list : Queue) : ℕ → Option ℕ → List BurstItem
  | _, none => []
  | 0, some _ => []
  | n + 1, some cur =>
    match list.cells cur with
    | none => []
    | some c => c.data :: list.walk n c.next

/-- The bursts in the queue, from its head. -/
def items (list : Queue) : List BurstItem := list.walk list.brk list.head

/-! ## What a queue holds -/

/-- The nodes `ns` are the queue; `q0` is its load when it is empty. -/
structure Repr (q : Queue) (q0 : ℤ) (ns : List (ℕ × BurstItem)) : Prop where
  chain : Chain q.cells none ns none
  nodup : (addrs ns).Nodup
  head : q.head = firstAddr none ns
  tail : q.tail = lastAddr none ns
  fresh : ∀ a ∈ addrs ns, a < q.brk
  size : q.size = ns.length
  load : q.queueLoad = q0 + ((values ns).map BurstItem.burstLength).sum

/-- The queue holds the bursts, in order, and then the marker if there is one. -/
structure Holds (q : Queue) (q0 : ℤ) (bursts : List BurstItem) (marker : Option BurstItem) :
    Prop where
  repr : ∃ ns, q.Repr q0 ns ∧ values ns = bursts ++ marker.toList
  bursts_pid : ∀ b ∈ bursts, b.pid ≠ -1
  marker_pid : ∀ m ∈ marker, m.pid = -1

variable {q : Queue} {q0 : ℤ} {ns : List (ℕ × BurstItem)}

theorem Repr.length_le (h : q.Repr q0 ns) : ns.length ≤ q.brk := length_le_of_lt h.nodup h.fresh

theorem Repr.brk_not_mem (h : q.Repr q0 ns) : q.brk ∉ addrs ns := fun hm =>
  absurd (h.fresh _ hm) (lt_irrefl _)

theorem walk_of_chain {p : Option ℕ} (hc : Chain q.cells p ns none) {n : ℕ}
    (hn : ns.length ≤ n) : q.walk n (firstAddr none ns) = values ns := by
  induction ns generalizing n p with
  | nil => cases n <;> rfl
  | cons c ns ih =>
    cases n with
    | zero => simp at hn
    | succ n =>
      have := ih hc.2 (by simpa using hn)
      simp [walk, hc.1, this]

theorem Holds.items_eq {bursts : List BurstItem} {marker : Option BurstItem}
    (h : q.Holds q0 bursts marker) : q.items = bursts ++ marker.toList := by
  obtain ⟨ns, hr, hv⟩ := h.repr
  rw [items, hr.head, walk_of_chain hr.chain hr.length_le, hv]

/-! ## enqueue -/

/-- The bookkeeping of an enqueue, wherever the new node is linked in. -/
theorem Repr.insert (h : q.Repr q0 ns) {b : BurstItem} {q' : Queue} {ns' : List (ℕ × BurstItem)}
    (hperm : ns'.Perm ((q.brk, b) :: ns)) (chain : Chain q'.cells none ns' none)
    (head : q'.head = firstAddr none ns') (tail : q'.tail = lastAddr none ns')
    (brk : q'.brk = q.brk + 1) (size : q'.size = q.size + 1)
    (load : q'.queueLoad = q.queueLoad + b.burstLength) : q'.Repr q0 ns' where
  chain := chain
  nodup := ((hperm.map Prod.fst).nodup_iff).mpr (List.nodup_cons.mpr ⟨h.brk_not_mem, h.nodup⟩)
  head := head
  tail := tail
  fresh := by
    intro a ha
    rcases List.mem_cons.mp ((hperm.map Prod.fst).mem_iff.mp ha) with rfl | ha
    · omega
    · have := h.fresh a ha
      omega
  size := by rw [size, h.size, hperm.length_eq]; simp
  load := by
    rw [load, h.load, ((hperm.map Prod.snd).map BurstItem.burstLength).sum_eq]
    simp; ring

/-- The heap after `malloc` and the first writes: the old chain, and a node of its own. -/
theorem Repr.malloc (h : q.Repr q0 ns) (b : BurstItem) :
    Chain (q.cells.write q.brk ⟨b, none, none⟩) none ns none ∧
      Chain (q.cells.write q.brk ⟨b, none, none⟩) none [(q.brk, b)] none :=
  ⟨h.chain.frame (fun _ hb => q.cells.write_of_ne _ hb) h.brk_not_mem, by simp [Chain]⟩

/-- Without a marker the new node becomes the last one. -/
theorem Repr.enqueue_last (h : q.Repr q0 ns) (hpid : ∀ c ∈ ns, c.2.pid ≠ -1) (b : BurstItem) :
    ∃ q', q.enqueue b = some q' ∧ q'.Repr q0 (ns ++ [(q.brk, b)]) := by
  obtain ⟨hold, hnew⟩ := h.malloc b
  rcases List.eq_nil_or_concat' ns with rfl | ⟨l, ⟨t, x⟩, rfl⟩
  · have hhead : q.head = none := h.head
    refine ⟨{ q with
      cells := q.cells.write q.brk ⟨b, none, none⟩, brk := q.brk + 1, head := some q.brk
      tail := some q.brk, size := q.size + 1, queueLoad := q.queueLoad + b.burstLength },
      by simp [enqueue, hhead], h.insert (by simp) hnew rfl rfl rfl rfl rfl⟩
  · have hne : q.brk ≠ t := fun e => h.brk_not_mem (by simp [e])
    obtain ⟨c, hc, hfirst, nx, hcell⟩ := hold.exists_first (by simp)
    have htail : q.tail = some t := h.tail.trans (lastAddr_concat _ _ _)
    have hlast := hold.cell_eq
    obtain ⟨c1, h1, hold1, hoff1⟩ := hold.setNext_last h.nodup (some q.brk)
    have hnew1 := hnew.frame hoff1 (by simpa using hne.symm)
    obtain ⟨c2, h2, hnew2, hoff2⟩ := hnew1.setPrev_first (by simp) (some t)
    have hold2 := hold1.frame hoff2 h.brk_not_mem
    refine ⟨{ q with
      cells := c2, brk := q.brk + 1, tail := some q.brk, size := q.size + 1
      queueLoad := q.queueLoad + b.burstLength }, ?_, h.insert ?_ (hold2.join ?_) ?_ ?_ rfl rfl rfl⟩
    · have hhd : q.head = some c.1 := h.head.trans hfirst
      have hx : x.pid ≠ -1 := hpid (t, x) (by simp)
      simp [enqueue, hhd, htail, hcell, hlast, hpid c hc, hx, h1, h2]
    · exact List.perm_append_singleton _ _
    · simpa using hnew2
    · simpa using h.head
    · simp

/-- With a marker the new node is linked in just in front of it. -/
theorem Repr.enqueue_before {t : ℕ} {m : BurstItem} (h : q.Repr q0 (ns ++ [(t, m)]))
    (hm : m.pid = -1) (hpid : ∀ c ∈ ns, c.2.pid ≠ -1) (b : BurstItem) :
    ∃ q', q.enqueue b = some q' ∧ q'.Repr q0 (ns ++ [(q.brk, b), (t, m)]) := by
  obtain ⟨hold, hnew⟩ := h.malloc b
  have hperm : (ns ++ [(q.brk, b), (t, m)]).Perm ((q.brk, b) :: (ns ++ [(t, m)])) :=
    List.perm_middle
  have hbrk := h.brk_not_mem
  simp only [addrs, List.map_append, List.map_cons, List.map_nil, List.mem_append,
    List.mem_singleton, not_or] at hbrk
  obtain ⟨hbns, hbt⟩ := hbrk
  have htns : t ∉ addrs ns := by
    have hnd := h.nodup
    rw [addrs, List.map_append, List.nodup_append] at hnd
    exact fun h => hnd.2.2 t h t (by simp) rfl
  have htail : q.tail = some t := h.tail.trans (lastAddr_concat _ _ _)
  have hlast := hold.cell_eq
  obtain ⟨holdns, holdt⟩ := Chain.append_iff.mp hold
  rcases List.eq_nil_or_concat' ns with rfl | ⟨l, ⟨r, x⟩, rfl⟩
  · -- the marker is alone: the new node becomes the head
    have hhd : q.head = some t := h.head
    obtain ⟨c1, h1, hnew1, hoff1⟩ := hnew.setNext_last (l := []) (by simp) (some t)
    obtain ⟨c2, h2, hmark, hoff2⟩ :=
      (holdt.frame hoff1 (by simpa using hbt)).setPrev_first (by simp) (some q.brk)
    have hnew2 := hnew1.frame hoff2 (by simpa using Ne.symm hbt)
    refine ⟨{ q with
      cells := c2, brk := q.brk + 1, head := some q.brk, size := q.size + 1
      queueLoad := q.queueLoad + b.burstLength }, ?_,
      h.insert hperm (Chain.join (l := [(q.brk, b)]) (by simpa using hnew2) hmark)
        rfl htail rfl rfl rfl⟩
    simp [enqueue, hhd, htail, hlast, hm, h1, h2]
  · have hr : x.pid ≠ -1 := hpid (r, x) (by simp)
    have hbr : q.brk ≠ r := fun e => hbns (by simp [e])
    have htr : t ≠ r := fun e => htns (by simp [e])
    obtain ⟨c, hc, hfirst, nx, hcell⟩ := holdns.exists_first (by simp)
    have hhd : q.head = some c.1 := by simpa using h.head.trans (by simpa using hfirst)
    have hnd : (addrs (l ++ [(r, x)])).Nodup := by
      have hnd := h.nodup
      rw [addrs, List.map_append, List.nodup_append] at hnd
      exact hnd.1
    obtain ⟨c1, h1, hns1, hoff1⟩ := holdns.setNext_last hnd (some q.brk)
    obtain ⟨c2, h2, hnew2, hoff2⟩ :=
      (hnew.frame hoff1 (by simpa using hbr.symm)).setPrev_first (by simp) (some r)
    obtain ⟨c3, h3, hnew3, hoff3⟩ := hnew2.setNext_last (l := []) (by simp) (some t)
    have hmark1 := (holdt.frame hoff1 (by simpa using htr.symm))
    have hmark3 := (hmark1.frame hoff2 (by simpa using hbt)).frame hoff3 (by simpa using hbt)
    obtain ⟨c4, h4, hmark4, hoff4⟩ := hmark3.setPrev_first (by simp) (some q.brk)
    have hns4 := ((hns1.frame hoff2 hbns).frame hoff3 hbns).frame hoff4 htns
    have hnew4 := hnew3.frame hoff4 (by simpa using Ne.symm hbt)
    refine ⟨{ q with
      cells := c4, brk := q.brk + 1, size := q.size + 1
      queueLoad := q.queueLoad + b.burstLength }, ?_, h.insert hperm ?_ ?_ ?_ rfl rfl rfl⟩
    · simp [enqueue, hhd, htail, hcell, hlast, hpid c hc, hm, h1, h2, h3, h4]
    · refine hns4.join (Chain.join (l := [(q.brk, b)]) ?_ hmark4)
      simpa using hnew4
    · simpa using h.head
    · simpa using htail

/-! ## dequeue -/

/-- The bookkeeping of a dequeue, wherever the node is taken out. -/
theorem Repr.remove (h : q.Repr q0 ns) {a : ℕ} {x : BurstItem} {q' : Queue}
    {ns' : List (ℕ × BurstItem)} (hperm : ns.Perm ((a, x) :: ns'))
    (chain : Chain q'.cells none ns' none) (head : q'.head = firstAddr none ns')
    (tail : q'.tail = lastAddr none ns') (brk : q'.brk = q.brk) (size : q'.size = q.size - 1)
    (load : q'.queueLoad = q.queueLoad - x.burstLength) : q'.Repr q0 ns' where
  chain := chain
  nodup := (List.nodup_cons.mp (((hperm.map Prod.fst).nodup_iff).mp h.nodup)).2
  head := head
  tail := tail
  fresh := fun b hb => by
    rw [brk]
    exact h.fresh b ((hperm.map Prod.fst).mem_iff.mpr (List.mem_cons_of_mem _ hb))
  size := by rw [size, h.size, hperm.length_eq]; simp
  load := by
    rw [load, h.load, ((hperm.map Prod.snd).map BurstItem.burstLength).sum_eq]
    simp; ring

theorem lnot_ne (x : ℤ) : lnot x ≠ -1 := by
  unfold lnot; split <;> omega

/-- The first node is taken out. -/
theorem Repr.dequeue {a : ℕ} {x : BurstItem} (h : q.Repr q0 ((a, x) :: ns)) :
    ∃ q', q.dequeue = some (some x, q') ∧ q'.Repr q0 ns := by
  have hhd : q.head = some a := h.head
  obtain ⟨hcell, hns⟩ := h.chain
  obtain ⟨ha, hnd⟩ := List.nodup_cons.mp h.nodup
  have hlnot := lnot_ne x.pid
  cases ns with
  | nil =>
    refine ⟨{ q with
      cells := q.cells.free a, head := none, tail := none, size := q.size - 1
      queueLoad := q.queueLoad - x.burstLength }, ?_,
      h.remove (List.Perm.refl _) trivial rfl rfl rfl rfl rfl⟩
    simp at hcell
    simp [Queue.dequeue, hhd, hcell, hlnot]
  | cons c ns =>
    obtain ⟨c1, h1, hns1, hoff1⟩ := hns.setPrev_first hnd none
    have htail : q.tail = lastAddr none (c :: ns) := h.tail
    simp at hcell
    refine ⟨{ q with
      cells := c1.free a, head := some c.1, size := q.size - 1
      queueLoad := q.queueLoad - x.burstLength }, ?_,
      h.remove (List.Perm.refl _) (hns1.frame (fun b hb => c1.free_of_ne hb) ha)
        rfl htail rfl rfl rfl⟩
    simp [Queue.dequeue, hhd, hcell, hlnot, h1]

/-- The scan stops at the first node with the pid. -/
theorem scanPid_of_chain {p : Option ℕ} {l m : List (ℕ × BurstItem)} {a : ℕ} {x : BurstItem}
    (hc : Chain q.cells p (l ++ (a, x) :: m) none) (hl : ∀ c ∈ l, c.2.pid ≠ x.pid) {n : ℕ}
    (hn : l.length < n) :
    q.scanPid x.pid n (firstAddr none (l ++ (a, x) :: m)) = some (some a) := by
  induction l generalizing n p with
  | nil =>
    cases n with
    | zero => simp at hn
    | succ n => simp [scanPid, hc.1]
  | cons c l ih =>
    cases n with
    | zero => simp at hn
    | succ n =>
      have := ih hc.2 (fun c hc => hl c (List.mem_cons_of_mem _ hc)) (by simpa using hn)
      simpa [scanPid, hc.1, hl c (by simp)] using this

/-- Without a node with the pid the scan reaches the end. -/
theorem scanPid_eq_none {pid : ℤ} {p : Option ℕ} (hc : Chain q.cells p ns none)
    (hpid : ∀ c ∈ ns, c.2.pid ≠ pid) {n : ℕ} (hn : ns.length ≤ n) :
    q.scanPid pid n (firstAddr none ns) = some none := by
  induction ns generalizing p n with
  | nil => cases n <;> rfl
  | cons c ns ih =>
    cases n with
    | zero => simp at hn
    | succ n =>
      have := ih hc.2 (fun d hd => hpid d (by simp [hd])) (by simpa using hn)
      simpa [scanPid, hc.1, hpid c (by simp)] using this

theorem Repr.dequeueAt_absent {pid : ℤ} (h : q.Repr q0 ns) (hpid : ∀ c ∈ ns, c.2.pid ≠ pid) :
    q.dequeueAt pid = some (none, q) := by
  have hscan := scanPid_eq_none h.chain hpid h.length_le
  rw [← h.head] at hscan
  cases hhd : q.head with
  | none => simp [Queue.dequeueAt, hhd]
  | some a =>
    rw [hhd] at hscan
    simp [Queue.dequeueAt, hhd, hscan]

/-- The first node with the pid is taken out. -/
theorem Repr.dequeueAt {l m : List (ℕ × BurstItem)} {a : ℕ} {x : BurstItem}
    (h : q.Repr q0 (l ++ (a, x) :: m)) (hl : ∀ c ∈ l, c.2.pid ≠ x.pid) :
    ∃ q', q.dequeueAt x.pid = some (some x, q') ∧ q'.Repr q0 (l ++ m) := by
  have hscan := scanPid_of_chain h.chain hl (n := q.brk) (by
    have := h.length_le
    simp at this; omega)
  have hperm : (l ++ (a, x) :: m).Perm ((a, x) :: (l ++ m)) := List.perm_middle
  obtain ⟨halm, hndlm⟩ := List.nodup_cons.mp ((hperm.map Prod.fst).nodup_iff.mp h.nodup)
  rcases List.eq_nil_or_concat' l with rfl | ⟨l, ⟨r, y⟩, rfl⟩
  · have hhd : q.head = some a := h.head
    obtain ⟨q', hq, hr⟩ := Repr.dequeue h
    refine ⟨q', ?_, hr⟩
    simp at hscan
    simp [Queue.dequeueAt, hhd, hscan, hq]
  · have hcell := h.chain.cell_eq
    obtain ⟨hpre, hcella, hm⟩ := Chain.append_iff.mp h.chain
    obtain ⟨c, hc, hfirst, -⟩ := hpre.exists_first (by simp)
    have hhd : q.head = some c.1 := by simpa using h.head.trans (by simpa using hfirst)
    rw [List.map_append, List.mem_append, not_or] at halm
    obtain ⟨hapre, ham⟩ := halm
    have hac : c.1 ≠ a := by
      rintro rfl
      exact hapre (List.mem_map.mpr ⟨c, hc, rfl⟩)
    rw [List.map_append, List.nodup_append] at hndlm
    have hrm : r ∉ addrs m := fun e => hndlm.2.2 r (by simp) r e rfl
    obtain ⟨c1, h1, hpre1, hoff1⟩ := hpre.setNext_last hndlm.1 (firstAddr none m)
    have hm1 := hm.frame hoff1 hrm
    rw [firstAddr_append, hfirst] at hscan
    cases m with
    | nil =>
      refine ⟨{ q with
        cells := c1.free a, tail := some r, size := q.size - 1
        queueLoad := q.queueLoad - x.burstLength }, ?_, h.remove hperm ?_ ?_ ?_ rfl rfl rfl⟩
      · simp at hcell h1
        simp [Queue.dequeueAt, hhd, hscan, hac.symm, hcell, h1]
      · simpa using hpre1.frame (fun b hb => c1.free_of_ne hb) hapre
      · simpa using h.head
      · simp
    | cons d m =>
      obtain ⟨c2, h2, hm2, hoff2⟩ := hm1.setPrev_first hndlm.2.1 (some r)
      have hpre2 := hpre1.frame hoff2 fun e => hndlm.2.2 d.1 e d.1 (by simp) rfl
      refine ⟨{ q with
        cells := c2.free a, size := q.size - 1
        queueLoad := q.queueLoad - x.burstLength }, ?_, h.remove hperm ?_ ?_ ?_ rfl rfl rfl⟩
      · simp at hcell h1
        simp [Queue.dequeueAt, hhd, hscan, hac.symm, hcell, h1, h2]
      · refine Chain.join (hpre2.frame (fun b hb => c2.free_of_ne hb) hapre) ?_
        simpa using hm2.frame (fun b hb => c2.free_of_ne hb) ham
      · simpa using h.head
      · simpa using h.tail

/-! ## The operations on what a queue holds -/

variable {bursts pre post : List BurstItem} {marker : Option BurstItem} {b m : BurstItem}

/-- A burst joins the end of the bursts, in front of a marker. -/
theorem Holds.enqueue (h : q.Holds q0 bursts marker) (hb : b.pid ≠ -1) :
    ∃ q', q.enqueue b = some q' ∧ q'.Holds q0 (bursts ++ [b]) marker := by
  obtain ⟨ns, hr, hv⟩ := h.repr
  have hbursts : ∀ c ∈ bursts ++ [b], c.pid ≠ -1 := by
    intro c hc
    rcases List.mem_append.mp hc with hc | hc
    · exact h.bursts_pid c hc
    · rwa [List.mem_singleton.mp hc]
  cases marker with
  | none =>
    simp at hv
    have hpid : ∀ c ∈ ns, c.2.pid ≠ -1 := fun c hc =>
      h.bursts_pid c.2 (hv ▸ List.mem_map_of_mem hc)
    obtain ⟨q', hq, hr'⟩ := hr.enqueue_last hpid b
    exact ⟨q', hq, ⟨_, hr', by simp [values, ← hv]⟩, hbursts, h.marker_pid⟩
  | some m =>
    obtain ⟨l, last, rfl, hl, hlast⟩ := List.map_eq_append_iff.mp hv
    obtain ⟨⟨t, x⟩, rfl, hx⟩ := List.map_eq_singleton_iff.mp hlast
    obtain rfl : x = m := hx
    have hpid : ∀ c ∈ l, c.2.pid ≠ -1 := fun c hc =>
      h.bursts_pid c.2 (hl ▸ List.mem_map_of_mem hc)
    obtain ⟨q', hq, hr'⟩ := hr.enqueue_before (h.marker_pid x rfl) hpid b
    exact ⟨q', hq, ⟨_, hr', by simp [values, ← hl]⟩, hbursts, h.marker_pid⟩

theorem Holds.enqueue_marker (h : q.Holds q0 bursts none) (hm : m.pid = -1) :
    ∃ q', q.enqueue m = some q' ∧ q'.Holds q0 bursts (some m) := by
  obtain ⟨ns, hr, hv⟩ := h.repr
  simp at hv
  have hpid : ∀ c ∈ ns, c.2.pid ≠ -1 := fun c hc =>
    h.bursts_pid c.2 (hv ▸ List.mem_map_of_mem hc)
  obtain ⟨q', hq, hr'⟩ := hr.enqueue_last hpid m
  exact ⟨q', hq, ⟨_, hr', by simp [values, ← hv]⟩, h.bursts_pid, by simp [hm]⟩

theorem Holds.dequeue (h : q.Holds q0 (b :: bursts) marker) :
    ∃ q', q.dequeue = some (some b, q') ∧ q'.Holds q0 bursts marker := by
  obtain ⟨ns, hr, hv⟩ := h.repr
  obtain ⟨⟨a, x⟩, ns, rfl, rfl, hns⟩ := List.map_eq_cons_iff.mp hv
  obtain ⟨q', hq, hr'⟩ := hr.dequeue
  exact ⟨q', hq, ⟨ns, hr', hns⟩, fun c hc => h.bursts_pid c (by simp [hc]), h.marker_pid⟩

/-- The first burst with the pid is taken out. -/
theorem Holds.dequeueAt (h : q.Holds q0 (pre ++ b :: post) marker)
    (hpre : ∀ c ∈ pre, c.pid ≠ b.pid) :
    ∃ q', q.dequeueAt b.pid = some (some b, q') ∧ q'.Holds q0 (pre ++ post) marker := by
  obtain ⟨ns, hr, hv⟩ := h.repr
  rw [List.append_assoc] at hv
  obtain ⟨l, rest, rfl, hl, hrest⟩ := List.map_eq_append_iff.mp hv
  obtain ⟨⟨a, x⟩, ns, rfl, rfl, hns⟩ := List.map_eq_cons_iff.mp hrest
  have hpid : ∀ c ∈ l, c.2.pid ≠ x.pid := fun c hc => hpre c.2 (hl ▸ List.mem_map_of_mem hc)
  obtain ⟨q', hq, hr'⟩ := hr.dequeueAt hpid
  have hns' : values ns = post ++ marker.toList := hns
  refine ⟨q', hq, ⟨_, hr', by simp [values, hl, hns']⟩, fun c hc => h.bursts_pid c ?_,
    h.marker_pid⟩
  simp only [List.mem_append, List.mem_cons] at hc ⊢
  tauto

end Queue

end Cs342.Scheduler
