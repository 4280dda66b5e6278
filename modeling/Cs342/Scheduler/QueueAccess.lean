import Cs342.Library.Access
import Cs342.Scheduler.Cpu

/-!
# The functions on a queue, access by access (readyqueue.c)

`enqueue`, `dequeue`, `dequeue_at`, the scan of `ALG_SJF` and the test for the marker again, with
each read and each write of the queue and its nodes as a step of its own, in the order of the
source. Without anybody in between they do what the functions of the queue do. The rounds of a
scan are counted from `brk` as it is when the scan begins (see `scanPid`).
-/

namespace Cs342.Scheduler

open Library

namespace Queue

/-! ## The accesses -/

/-- `cur->data`, and what this burst holds. -/
def readData (cur : Option ℕ) : Access Queue BurstItem :=
  .load fun q => (cur.bind q.cells).map Cell.data

/-- `cur->next`. -/
def readNext (cur : Option ℕ) : Access Queue (Option ℕ) :=
  .load fun q => (cur.bind q.cells).map Cell.next

/-- `cur->prev`. -/
def readPrev (cur : Option ℕ) : Access Queue (Option ℕ) :=
  .load fun q => (cur.bind q.cells).map Cell.prev

/-- `cur->next = v`. -/
def writeNext (cur v : Option ℕ) : Access Queue Unit :=
  .store fun q => cur.bind fun a => (q.cells.setNext a v).map fun cells => { q with cells := cells }

/-- `cur->prev = v`. -/
def writePrev (cur v : Option ℕ) : Access Queue Unit :=
  .store fun q => cur.bind fun a => (q.cells.setPrev a v).map fun cells => { q with cells := cells }

/-- `list->size += n`, which reads and writes. -/
def addSize (n : ℤ) : Access Queue Unit := do
  let size ← .get Queue.size
  .set fun q => { q with size := size + n }

/-- `list->queueLoad += n`. -/
def addLoad (n : ℤ) : Access Queue Unit := do
  let load ← .get Queue.queueLoad
  .set fun q => { q with queueLoad := load + n }

/-- `malloc`, and the writes to the new node, of which nobody else knows yet. -/
def newNode (value : BurstItem) : Access Queue ℕ :=
  .step (fun q => { q with cells := q.cells.write q.brk ⟨value, none, none⟩, brk := q.brk + 1 })
    fun q => .ret q.brk

/-! ## The functions -/

def enqueueSteps (value : BurstItem) : Access Queue Unit := do
  let node ← newNode value
  addSize 1
  addLoad value.burstLength
  if (← .get Queue.head) = none then
    .set fun q => { q with head := some node }
    .set fun q => { q with tail := some node }
  else if (← readData (← .get Queue.head)).pid = -1 then
    .set fun q => { q with head := some node }
    writeNext (← .get Queue.head) (← .get Queue.tail)
    writePrev (← .get Queue.tail) (← .get Queue.head)
  else if (← readData (← .get Queue.tail)).pid = -1 then
    writeNext (← readPrev (← .get Queue.tail)) (some node)
    writePrev (some node) (← readPrev (← .get Queue.tail))
    writeNext (some node) (← .get Queue.tail)
    writePrev (← .get Queue.tail) (some node)
  else
    writeNext (← .get Queue.tail) (some node)
    writePrev (some node) (← .get Queue.tail)
    .set fun q => { q with tail := some node }

def freeNode (cur : Option ℕ) : Access Queue Unit :=
  .store fun q => cur.map fun a => { q with cells := q.cells.free a }

def dequeueSteps : Access Queue (Option BurstItem) := do
  if (← .get Queue.head) = none then return none
  if lnot (← readData (← .get Queue.head)).pid = -1 then return none
  let cur ← .get Queue.head
  let res ← readData cur
  let head ← readNext (← .get Queue.head)
  .set fun q => { q with head := head }
  if (← .get Queue.head) = none then
    .set fun q => { q with tail := none }
  else
    writePrev (← .get Queue.head) none
  writeNext cur none
  writePrev cur none
  freeNode cur
  addSize (-1)
  addLoad (-res.burstLength)
  return some res

/-- The scan of `dequeue_at`, from `cur` on. -/
def seek (pid : ℤ) : ℕ → Option ℕ → Access Queue (Option ℕ)
  | _, none => return none
  | 0, some _ => .fail
  | n + 1, some cur => do
    if (← readData (some cur)).pid = pid then return some cur
    else seek pid n (← readNext (some cur))

def dequeueAtSteps (pid : ℤ) : Access Queue (Option BurstItem) := do
  if (← .get Queue.head) = none then return none
  let (n, head) ← .get fun q => (q.brk, q.head)
  let cur ← seek pid n head
  if cur = none then return none
  if cur = (← .get Queue.head) then dequeueSteps
  else
    writeNext (← readPrev cur) (← readNext cur)
    if (← readNext cur) = none then
      let prev ← readPrev cur
      .set fun q => { q with tail := prev }
    else
      writePrev (← readNext cur) (← readPrev cur)
    writeNext cur none
    writePrev cur none
    addSize (-1)
    addLoad (-(← readData cur).burstLength)
    let res ← readData cur
    freeNode cur
    return some res

/-- The test for the marker. -/
def markerSteps : Access Queue Bool := do
  if (← .get Queue.head) = none then return false
  return decide ((← readData (← .get Queue.head)).pid = -1)

/-- The scan of `ALG_SJF`, from `cur` on. -/
def scanSteps : ℕ → Option ℕ → Option ℕ → Access Queue (Option ℕ)
  | _, none, shortest => return shortest
  | 0, some _, _ => .fail
  | n + 1, some cur, shortest => do
    let b ← readData (some cur)
    if b.pid ≠ -1 then
      let s ← readData shortest
      let shortest := if b.remainingTime < s.remainingTime then some cur else shortest
      scanSteps n (← readNext (some cur)) shortest
    else scanSteps n (← readNext (some cur)) shortest

/-- The pid that the scan hands to `dequeue_at`. -/
def shortestSteps : Access Queue ℤ := do
  let (n, cur) ← .get fun q => (q.brk, q.head)
  let shortest ← scanSteps n cur cur
  return (← readData shortest).pid

/-! ## Without anybody in between -/

variable {q : Queue} {α : Type} {a : ℕ}

@[simp] theorem run_readData (k : BurstItem → Access Queue α) :
    (readData (some a) >>= k).run q =
      match q.cells a with
      | none => none
      | some c => (k c.data).run q := by
  cases h : q.cells a <;> simp [readData, h]

@[simp] theorem run_readNext (k : Option ℕ → Access Queue α) :
    (readNext (some a) >>= k).run q =
      match q.cells a with
      | none => none
      | some c => (k c.next).run q := by
  cases h : q.cells a <;> simp [readNext, h]

@[simp] theorem run_readPrev (k : Option ℕ → Access Queue α) :
    (readPrev (some a) >>= k).run q =
      match q.cells a with
      | none => none
      | some c => (k c.prev).run q := by
  cases h : q.cells a <;> simp [readPrev, h]

@[simp] theorem run_read_null (k : BurstItem → Access Queue α) :
    (readData none >>= k).run q = none := by
  simp [readData]

@[simp] theorem run_write_null (v : Option ℕ) (k : Unit → Access Queue α) :
    (writeNext none v >>= k).run q = none := by
  simp [writeNext]

@[simp] theorem run_writeNext (v : Option ℕ) (k : Unit → Access Queue α) :
    (writeNext (some a) v >>= k).run q =
      match q.cells.setNext a v with
      | none => none
      | some cells => (k ()).run { q with cells := cells } := by
  cases h : q.cells.setNext a v <;> simp [writeNext, h]

@[simp] theorem run_writePrev (v : Option ℕ) (k : Unit → Access Queue α) :
    (writePrev (some a) v >>= k).run q =
      match q.cells.setPrev a v with
      | none => none
      | some cells => (k ()).run { q with cells := cells } := by
  cases h : q.cells.setPrev a v <;> simp [writePrev, h]

@[simp] theorem run_addSize (n : ℤ) (k : Unit → Access Queue α) :
    (addSize n >>= k).run q = (k ()).run { q with size := q.size + n } := rfl

@[simp] theorem run_addLoad (n : ℤ) (k : Unit → Access Queue α) :
    (addLoad n >>= k).run q = (k ()).run { q with queueLoad := q.queueLoad + n } := rfl

@[simp] theorem run_newNode (value : BurstItem) (k : ℕ → Access Queue α) :
    (newNode value >>= k).run q = (k q.brk).run { q with
      cells := q.cells.write q.brk ⟨value, none, none⟩, brk := q.brk + 1 } := rfl

@[simp] theorem run_last_writePrev (v : Option ℕ) : (writePrev (some a) v).run q =
    (q.cells.setPrev a v).map fun cells => ((), { q with cells := cells }) := by
  simp [writePrev, Function.comp_def]

@[simp] theorem run_last_write_null (v : Option ℕ) : (writePrev none v).run q = none := by
  simp [writePrev]

theorem run_enqueueSteps (value : BurstItem) :
    (enqueueSteps value).run q = (q.enqueue value).map fun q' => ((), q') := by
  unfold enqueueSteps enqueue
  rcases hhead : q.head with _ | head
  · simp [hhead]
  rcases hhc : (q.cells.write q.brk ⟨value, none, none⟩) head with _ | hc
  · simp [hhead, hhc]
  rcases htail : q.tail with _ | tail
  · by_cases hmark : hc.data.pid = -1
    · simp [hhead, hhc, hmark, htail, Heap.setNext]
    · simp [hhead, hhc, hmark, htail]
  rcases htc : (q.cells.write q.brk ⟨value, none, none⟩) tail with _ | tc
  · have hne : tail ≠ q.brk := by
      rintro rfl
      simp at htc
    have hcell : q.cells tail = none := by rwa [Heap.write_of_ne _ _ hne] at htc
    by_cases hmark : hc.data.pid = -1
    · simp [hhead, hhc, hmark, htail, hcell, Heap.setNext, Heap.setPrev, Heap.write_of_ne _ _ hne]
    · simp [hhead, hhc, hmark, htail, htc]
  by_cases hmark : hc.data.pid = -1
  · -- the marker is alone
    rcases hg : (q.cells.write q.brk ⟨value, none, none⟩).setNext q.brk (some tail) with _ | g
    · simp [hhead, hhc, hmark, htail, htc, hg]
    · cases hg' : g.setPrev tail (some q.brk) <;> simp [hhead, hhc, hmark, htail, htc, hg, hg']
  by_cases hlast : tc.data.pid = -1
  · -- the new node is linked in front of the marker
    rcases hprev : tc.prev with _ | prev
    · simp [hhead, hhc, hmark, htail, htc, hlast, hprev]
    rcases hg : (q.cells.write q.brk ⟨value, none, none⟩).setNext prev (some q.brk) with _ | g
    · simp [hhead, hhc, hmark, htail, htc, hlast, hprev, hg]
    obtain ⟨d, hd, -, hdprev, -⟩ := Heap.setNext_cell hg htc
    rw [hprev] at hdprev
    rcases hg2 : g.setPrev q.brk (some prev) with _ | g2
    · simp [hhead, hhc, hmark, htail, htc, hlast, hprev, hg, hd, hdprev, hg2]
    rcases hg3 : g2.setNext q.brk (some tail) with _ | g3
    · simp [hhead, hhc, hmark, htail, htc, hlast, hprev, hg, hd, hdprev, hg2, hg3]
    · cases hg4 : g3.setPrev tail (some q.brk) <;>
        simp [hhead, hhc, hmark, htail, htc, hlast, hprev, hg, hd, hdprev, hg2, hg3, hg4]
  · rcases hg : (q.cells.write q.brk ⟨value, none, none⟩).setNext tail (some q.brk) with _ | g
    · simp [hhead, hhc, hmark, htail, htc, hlast, hg]
    · cases hg' : g.setPrev q.brk (some tail) <;>
        simp [hhead, hhc, hmark, htail, htc, hlast, hg, hg']

@[simp] theorem run_freeNode (k : Unit → Access Queue α) : (freeNode (some a) >>= k).run q =
    (k ()).run { q with cells := q.cells.free a } := by
  simp [freeNode]

theorem run_dequeueSteps : dequeueSteps.run q = q.dequeue := by
  unfold dequeueSteps dequeue
  cases hhead : q.head with
  | none => simp [hhead]
  | some cur =>
    cases hc : q.cells cur with
    | none => simp [hhead, hc]
    | some c =>
      have hlnot := lnot_ne c.data.pid
      cases hnext : c.next with
      | none => simp [hhead, hc, hlnot, hnext, Heap.setNext_eq hc, Heap.setPrev_eq, sub_eq_add_neg]
      | some next =>
        cases hg : q.cells.setPrev next none with
        | none => simp [hhead, hc, hlnot, hnext, hg]
        | some g =>
          obtain ⟨d, hd, -⟩ := Heap.setPrev_cell hg hc
          simp [hhead, hc, hlnot, hnext, hg, Heap.setNext_eq hd, Heap.setPrev_eq, sub_eq_add_neg]

theorem run_seek (pid : ℤ) (n : ℕ) (cur : Option ℕ) :
    (seek pid n cur).run q = (q.scanPid pid n cur).map fun r => (r, q) := by
  induction n generalizing cur with
  | zero => cases cur <;> rfl
  | succ n ih =>
    cases cur with
    | none => rfl
    | some cur =>
      cases hc : q.cells cur with
      | none => simp [seek, scanPid, hc]
      | some c =>
        by_cases hpid : c.data.pid = pid
        · simp [seek, scanPid, hc, hpid]
        · simp [seek, scanPid, hc, hpid, ih]

@[simp] theorem run_seek_bind (pid : ℤ) (n : ℕ) (cur : Option ℕ)
    (k : Option ℕ → Access Queue α) : (seek pid n cur >>= k).run q =
      match q.scanPid pid n cur with
      | none => none
      | some r => (k r).run q := by
  rw [Access.run_bind, run_seek]
  cases q.scanPid pid n cur <;> rfl

theorem run_dequeueAtSteps (pid : ℤ) : (dequeueAtSteps pid).run q = q.dequeueAt pid := by
  unfold dequeueAtSteps dequeueAt
  rcases hhead : q.head with _ | head
  · simp [hhead]
  rcases hcur : q.scanPid pid q.brk (some head) with _ | _ | cur
  · simp [hhead, hcur]
  · simp [hhead, hcur]
  by_cases hfirst : cur = head
  · simp [hhead, hcur, hfirst, run_dequeueSteps]
  rcases hc : q.cells cur with _ | c
  · simp [hhead, hcur, hfirst, hc]
  rcases hprev : c.prev with _ | prev
  · simp [hhead, hcur, hfirst, hc, hprev]
  rcases hg : q.cells.setNext prev c.next with _ | g
  · simp [hhead, hcur, hfirst, hc, hprev, hg]
  -- the node itself is as before, although `prev` may be any node
  obtain ⟨d, hd, hddata, hdprev, hdnext⟩ := Heap.setNext_cell hg hc
  replace hdnext := hdnext rfl
  rw [hprev] at hdprev
  cases hnext : c.next with
  | none =>
    rw [hnext] at hg hdnext
    simp [hhead, hcur, hfirst, hc, hprev, hg, hd, hddata, hdprev, hdnext, hnext,
      Heap.setNext_eq hd, Heap.setPrev_eq, sub_eq_add_neg]
  | some next =>
    rw [hnext] at hg hdnext
    rcases hg' : g.setPrev next (some prev) with _ | g'
    · simp [hhead, hcur, hfirst, hc, hprev, hg, hd, hdprev, hdnext, hnext, hg']
    · obtain ⟨e, he, hedata⟩ := Heap.setPrev_cell hg' hd
      simp [hhead, hcur, hfirst, hc, hprev, hg, hd, hddata, hdprev, hdnext, hnext, hg', hedata,
        Heap.setNext_eq he, Heap.setPrev_eq, sub_eq_add_neg]

theorem run_markerSteps : markerSteps.run q = q.atMarker.map fun b => (b, q) := by
  unfold markerSteps atMarker
  cases hhead : q.head with
  | none => simp [hhead]
  | some head => cases hc : q.cells head <;> simp [hhead, hc]

/-- The shortest burst so far is one of those the scan has met. -/
theorem run_scanSteps (n : ℕ) (cur : Option ℕ) {shortest : ℕ} {s : Cell BurstItem}
    (hs : q.cells shortest = some s) : (scanSteps n cur (some shortest)).run q =
      (q.scanShortest n cur shortest).map fun r => (some r, q) := by
  induction n generalizing cur shortest s with
  | zero => cases cur <;> rfl
  | succ n ih =>
    cases cur with
    | none => rfl
    | some cur =>
      cases hc : q.cells cur with
      | none => simp [scanSteps, scanShortest, hc]
      | some c =>
        by_cases hpid : c.data.pid = -1
        · simp [scanSteps, scanShortest, hc, hs, hpid, ih c.next hs]
        · by_cases hless : c.data.remainingTime < s.data.remainingTime
          · simp [scanSteps, scanShortest, hc, hs, hpid, hless, ih c.next hc]
          · simp [scanSteps, scanShortest, hc, hs, hpid, hless, ih c.next hs]

theorem run_shortestSteps : shortestSteps.run q =
    q.head.bind fun head => (q.scanShortest q.brk (some head) head).bind fun shortest =>
      (q.cells shortest).map fun c => (c.data.pid, q) := by
  rw [shortestSteps, Access.run_get_bind]
  simp only [Access.run_bind]
  cases hhead : q.head with
  | none => cases q.brk <;> simp [scanSteps, readData]
  | some head =>
    rw [Option.bind_some]
    cases hc : q.cells head with
    | none => cases q.brk <;> simp [scanSteps, scanShortest, hc, Access.run]
    | some c =>
      rw [run_scanSteps _ _ hc]
      cases q.scanShortest q.brk (some head) head with
      | none => rfl
      | some shortest => cases hs : q.cells shortest <;> simp [readData, hs]

/-! ## Accesses that change nothing -/

theorem quiet_readData (cur : Option ℕ) : (readData cur).Quiet q := Access.quiet_load _

theorem quiet_readNext (cur : Option ℕ) : (readNext cur).Quiet q := Access.quiet_load _

theorem quiet_markerSteps : markerSteps.Quiet q := by
  simp only [markerSteps, Access.quiet_get_bind, Access.quiet_ite]
  split_ifs
  · trivial
  · exact Access.quiet_bind (quiet_readData _) fun _ => trivial

theorem quiet_scanSteps (n : ℕ) (cur shortest : Option ℕ) :
    (scanSteps n cur shortest).Quiet q := by
  induction n generalizing cur shortest with
  | zero => cases cur <;> trivial
  | succ n ih =>
    cases cur with
    | none => trivial
    | some cur =>
      refine Access.quiet_bind (quiet_readData _) fun b => ?_
      have hnext (s : Option ℕ) :
          (do scanSteps n (← readNext (some cur)) s : Access Queue (Option ℕ)).Quiet q :=
        Access.quiet_bind (quiet_readNext _) fun _ => ih _ _
      dsimp only
      split_ifs
      · exact Access.quiet_bind (quiet_readData _) fun _ => hnext _
      · exact hnext _

theorem quiet_shortestSteps : shortestSteps.Quiet q := by
  refine (Access.quiet_get_bind _ _).mpr ?_
  exact Access.quiet_bind (quiet_scanSteps _ _ _) fun _ =>
    Access.quiet_bind (quiet_readData _) fun _ => trivial

/-- From an empty queue nothing is taken. -/
theorem quiet_dequeueSteps (hhead : q.head = none) : dequeueSteps.Quiet q := by
  simp [dequeueSteps, hhead]

theorem quiet_dequeueAtSteps (pid : ℤ) (hhead : q.head = none) : (dequeueAtSteps pid).Quiet q := by
  simp [dequeueAtSteps, hhead]

end Queue

end Cs342.Scheduler
