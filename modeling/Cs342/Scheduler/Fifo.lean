import Cs342.Scheduler.Cpu

/-!
# The ready queue as a first-in first-out queue

What a ready queue is for, apart from its pointers: bursts leave in the order in which
they came, or by their pid, and an end marker stays behind all of them. As long as
nobody dequeues the marker, the pointers do what this machine does; `dequeue` itself
does not refuse to.
-/

namespace Cs342.Scheduler

open Library

/-- A call of one of the functions that change a queue. -/
inductive QueueCall where
  | enqueue (value : BurstItem)
  | dequeue
  | dequeueAt (pid : ℤ)

/-- Whether the call enqueues a marker. -/
def QueueCall.isMarker : QueueCall → Bool
  | .enqueue b => b.pid = -1
  | _ => false

/-- The bursts in the order of their arrival, and the marker behind them. -/
structure Fifo where
  bursts : List BurstItem
  marker : Option BurstItem

namespace Fifo

def empty : Fifo := ⟨[], none⟩

def items (f : Fifo) : List BurstItem := f.bursts ++ f.marker.toList

/-- What a call returns, and what is left. -/
def call (f : Fifo) : QueueCall → Option BurstItem × Fifo
  | .enqueue b =>
    if b.pid = -1 then (none, { f with marker := some b })
    else (none, { f with bursts := f.bursts ++ [b] })
  | .dequeue => (f.bursts.head?, { f with bursts := f.bursts.tail })
  | .dequeueAt pid =>
    (f.bursts.find? fun b => b.pid = pid, { f with bursts := f.bursts.eraseP fun b => b.pid = pid })

/-- Bursts have pids from 1 on, those in the queue different ones; there is one marker, and
it is not dequeued. -/
def Allows (f : Fifo) : QueueCall → Prop
  | .enqueue b => 1 ≤ b.pid ∧ (∀ c ∈ f.bursts, c.pid ≠ b.pid) ∨ b.pid = -1 ∧ f.marker = none
  | .dequeue => f.bursts = [] → f.marker = none
  | .dequeueAt pid => 1 ≤ pid

/-- What it takes for a call to keep the marker behind the bursts. -/
def Admits (f : Fifo) : QueueCall → Prop
  | .enqueue b => b.pid = -1 → f.marker = none
  | .dequeue => f.bursts = [] → f.marker = none
  | .dequeueAt pid => pid ≠ -1

def AllowsAll : Fifo → List QueueCall → Prop
  | _, [] => True
  | f, c :: cs => f.Allows c ∧ (f.call c).2.AllowsAll cs

def calls : Fifo → List QueueCall → List (Option BurstItem) × Fifo
  | f, [] => ([], f)
  | f, c :: cs =>
    let (result, f) := f.call c
    let (results, f) := f.calls cs
    (result :: results, f)

variable {f : Fifo} {c : QueueCall}

theorem marker_call : (f.call c).2.marker = none ↔ c.isMarker = false ∧ f.marker = none := by
  cases c with
  | enqueue b => by_cases hb : b.pid = -1 <;> simp [call, QueueCall.isMarker, hb]
  | dequeue => simp [call, QueueCall.isMarker]
  | dequeueAt pid => simp [call, QueueCall.isMarker]

theorem Allows.admits (h : f.Allows c) : f.Admits c := by
  cases c with
  | enqueue b =>
    intro hb
    rcases h with ⟨hpos, -⟩ | ⟨-, hnone⟩
    · omega
    · exact hnone
  | dequeue => exact h
  | dequeueAt pid =>
    have hpos : 1 ≤ pid := h
    exact fun he => by omega

/-- The bursts in the queue have different pids. -/
theorem Allows.nodup (h : f.Allows c) (hnd : (f.bursts.map BurstItem.pid).Nodup) :
    ((f.call c).2.bursts.map BurstItem.pid).Nodup := by
  cases c with
  | enqueue b =>
    by_cases hb : b.pid = -1
    · simpa [call, hb] using hnd
    · obtain ⟨-, hfresh⟩ := h.resolve_right fun hm => hb hm.1
      simp only [call, if_neg hb, List.map_append, List.nodup_append]
      refine ⟨hnd, by simp, fun p hp r hr => ?_⟩
      obtain ⟨c, hc, rfl⟩ := List.mem_map.mp hp
      obtain rfl : r = b.pid := by simpa using hr
      exact hfresh c hc
  | dequeue => exact hnd.sublist ((List.tail_sublist _).map _)
  | dequeueAt pid => exact hnd.sublist (List.eraseP_sublist.map _)

end Fifo

namespace Queue

def call (q : Queue) : QueueCall → Option (Option BurstItem × Queue)
  | .enqueue b => (q.enqueue b).map fun q => (none, q)
  | .dequeue => q.dequeue
  | .dequeueAt pid => q.dequeueAt pid

def calls : Queue → List QueueCall → Option (List (Option BurstItem) × Queue)
  | q, [] => some ([], q)
  | q, c :: cs => do
    let (result, q) ← q.call c
    let (results, q) ← q.calls cs
    some (result :: results, q)

/-- Both directions of links and both counters are those of the abstract queue; `q0` is the
load of the queue when it is empty. -/
structure Represents (q : Queue) (q0 : ℤ) (f : Fifo) : Prop where
  forward : q.cells.follow Cell.next q.brk q.head = some f.items
  backward : q.cells.follow Cell.prev q.brk q.tail = some f.items.reverse
  head_prev : ∀ a ∈ q.head, ∃ c, q.cells a = some c ∧ c.prev = none
  tail_next : ∀ a ∈ q.tail, ∃ c, q.cells a = some c ∧ c.next = none
  head_null : q.head = none ↔ f.items = []
  tail_null : q.tail = none ↔ f.items = []
  size : q.size = f.items.length
  load : q.queueLoad = q0 + (f.items.map BurstItem.burstLength).sum

variable {q q' : Queue} {q0 : ℤ} {bursts : List BurstItem} {marker : Option BurstItem} {f : Fifo}
  {c : QueueCall} {pid : ℤ}

theorem holds_empty (q0 : ℤ) : (Queue.empty q0).Holds q0 [] none := by
  refine ⟨⟨[], ⟨trivial, ?_, rfl, rfl, ?_, rfl, ?_⟩, rfl⟩, ?_, ?_⟩ <;> simp [Queue.empty]

theorem Holds.represents (h : q.Holds q0 f.bursts f.marker) : q.Represents q0 f := by
  obtain ⟨ns, hr, hv⟩ := h.repr
  have hitems : values ns = f.items := hv
  have hnil : ns = [] ↔ f.items = [] := by rw [← hitems, List.map_eq_nil_iff]
  refine {
    forward := ?_
    backward := ?_
    head_prev := fun a ha => ?_
    tail_next := fun a ha => ?_
    head_null := ?_
    tail_null := ?_
    size := by rw [hr.size, ← hitems, List.length_map]
    load := by rw [hr.load, hitems] }
  · rw [hr.head, hr.chain.follow_next hr.length_le, hitems]
  · rw [hr.tail, hr.chain.follow_prev hr.length_le, hitems]
  · cases ns with
    | nil => simp [hr.head] at ha
    | cons x ns =>
      obtain rfl : x.1 = a := by simpa [hr.head] using ha
      exact ⟨_, hr.chain.1, rfl⟩
  · rcases List.eq_nil_or_concat' ns with rfl | ⟨l, x, rfl⟩
    · simp [hr.tail] at ha
    · obtain rfl : x.1 = a := by simpa [hr.tail] using ha
      exact ⟨_, hr.chain.cell_eq, rfl⟩
  · rw [hr.head, ← hnil]
    cases ns <;> simp
  · rw [hr.tail, ← hnil]
    rcases List.eq_nil_or_concat' ns with rfl | ⟨l, x, rfl⟩ <;> simp

/-- An absent pid: nothing is removed. -/
theorem Holds.dequeueAt_absent (h : q.Holds q0 bursts marker) (hpid : ∀ b ∈ bursts, b.pid ≠ pid)
    (hm : pid ≠ -1) : q.dequeueAt pid = some (none, q) := by
  obtain ⟨ns, hr, hv⟩ := h.repr
  refine hr.dequeueAt_absent fun c hc => ?_
  have hmem : c.2 ∈ bursts ++ marker.toList := hv ▸ List.mem_map_of_mem hc
  rcases List.mem_append.mp hmem with hb | hb
  · exact hpid c.2 hb
  · rw [h.marker_pid c.2 (by simpa using hb)]
    exact hm.symm

/-- A queue with nothing but a marker, or nothing at all. -/
theorem Holds.dequeue_nil (h : q.Holds q0 [] marker) :
    ∃ q', q.dequeue = some (marker, q') ∧ q'.Holds q0 [] none ∧ (marker = none → q' = q) := by
  obtain ⟨ns, hr, hv⟩ := h.repr
  cases marker with
  | none =>
    have hns : ns = [] := by simpa using hv
    have hhd : q.head = none := by simp [hr.head, hns]
    exact ⟨q, by simp [Queue.dequeue, hhd], h, fun _ => rfl⟩
  | some m =>
    obtain ⟨⟨a, x⟩, rfl, rfl⟩ := List.map_eq_singleton_iff.mp hv
    obtain ⟨q', hq, hr'⟩ := hr.dequeue
    exact ⟨q', hq, ⟨⟨[], hr', rfl⟩, by simp, by simp⟩, by simp⟩

/-- The function of the pointers does what the abstract queue does. -/
theorem Holds.call (h : q.Holds q0 f.bursts f.marker) (hc : f.Admits c) :
    ∃ q', q.call c = some ((f.call c).1, q') ∧
      q'.Holds q0 (f.call c).2.bursts (f.call c).2.marker := by
  cases c with
  | enqueue b =>
    by_cases hpid : b.pid = -1
    · obtain ⟨q', hq, hh⟩ := Holds.enqueue_marker (hc hpid ▸ h) hpid
      exact ⟨q', by simp [Queue.call, Fifo.call, hq, hpid], by simpa [Fifo.call, hpid] using hh⟩
    · obtain ⟨q', hq, hh⟩ := h.enqueue hpid
      exact ⟨q', by simp [Queue.call, Fifo.call, hq, hpid], by simpa [Fifo.call, hpid] using hh⟩
  | dequeue =>
    obtain ⟨bursts, marker⟩ := f
    cases bursts with
    | nil =>
      obtain rfl : marker = none := hc rfl
      obtain ⟨q', hq, hh, -⟩ := h.dequeue_nil
      exact ⟨q', hq, hh⟩
    | cons b bursts =>
      obtain ⟨q', hq, hh⟩ := Holds.dequeue h
      exact ⟨q', hq, hh⟩
  | dequeueAt pid =>
    have hpid : pid ≠ -1 := hc
    cases hfind : f.bursts.find? fun b => b.pid = pid with
    | none =>
      have habsent : ∀ b ∈ f.bursts, b.pid ≠ pid := by simpa using hfind
      have herase : f.bursts.eraseP (fun b => b.pid = pid) = f.bursts :=
        List.eraseP_of_forall_not (by simpa using habsent)
      refine ⟨q, ?_, by simpa [Fifo.call, herase] using h⟩
      simp [Queue.call, Fifo.call, hfind, h.dequeueAt_absent habsent hpid]
    | some b =>
      obtain ⟨hb, pre, post, hsplit, hpre⟩ := List.find?_eq_some_iff_append.mp hfind
      obtain rfl : b.pid = pid := by simpa using hb
      have herase : f.bursts.eraseP (fun c => c.pid = b.pid) = pre ++ post := by
        rw [hsplit, List.eraseP_append_right _ (by simpa using hpre)]
        simp
      obtain ⟨q', hq, hh⟩ := Holds.dequeueAt (hsplit ▸ h) (by simpa using hpre)
      exact ⟨q', by simp [Queue.call, Fifo.call, hfind, hq], by simpa [Fifo.call, herase] using hh⟩

/-- A sequence of calls returns what the abstract queue returns, and leaves what it leaves. -/
theorem Holds.calls (h : q.Holds q0 f.bursts f.marker) (hnd : (f.bursts.map BurstItem.pid).Nodup)
    {cs : List QueueCall} (hcs : f.AllowsAll cs) :
    ∃ q', q.calls cs = some ((f.calls cs).1, q') ∧
      q'.Holds q0 (f.calls cs).2.bursts (f.calls cs).2.marker ∧
      ((f.calls cs).2.bursts.map BurstItem.pid).Nodup := by
  induction cs generalizing q f with
  | nil => exact ⟨q, rfl, h, hnd⟩
  | cons c cs ih =>
    obtain ⟨hc, hcs⟩ := hcs
    obtain ⟨q', hq, hh⟩ := h.call hc.admits
    obtain ⟨q'', hq', hh', hnd'⟩ := ih hh (hc.nodup hnd) hcs
    exact ⟨q'', by simp [Queue.calls, Fifo.calls, hq, hq'], hh', hnd'⟩

/-- From an empty queue on, every sequence of calls returns what the abstract queue returns, and
leaves a doubly linked list of what the abstract queue holds. The counters are unbounded: the size
is taken to stay within an `int`, and `q0` together with the loads within a `long long`. -/
theorem queue_is_fifo (q0 : ℤ) {cs : List QueueCall} (hcs : Fifo.empty.AllowsAll cs) :
    ∃ q, (Queue.empty q0).calls cs = some ((Fifo.empty.calls cs).1, q) ∧
      q.Represents q0 (Fifo.empty.calls cs).2 ∧
      ((Fifo.empty.calls cs).2.bursts.map BurstItem.pid).Nodup ∧
      ∀ pid, 1 ≤ pid → (∀ b ∈ (Fifo.empty.calls cs).2.bursts, b.pid ≠ pid) →
        q.dequeueAt pid = some (none, q) := by
  have hempty : (Queue.empty q0).Holds q0 Fifo.empty.bursts Fifo.empty.marker := holds_empty q0
  obtain ⟨q, hq, hh, hnd⟩ := hempty.calls (by simp [Fifo.empty]) hcs
  refine ⟨q, hq, hh.represents, hnd, fun pid hpos habsent => ?_⟩
  exact hh.dequeueAt_absent habsent (by omega)

/-- A burst with this pid and length. -/
def burstOf (pid burstLength : ℤ) : BurstItem := ⟨pid, burstLength, 0, burstLength, -1, -1, 0⟩

/-- Two bursts around the marker, the second taken out first. -/
def aroundMarker : List QueueCall :=
  [.enqueue (burstOf 1 5), .enqueue endMarker, .enqueue (burstOf 2 7), .dequeueAt 2, .dequeue]

example : Fifo.empty.calls aroundMarker =
    ([none, none, none, some (burstOf 2 7), some (burstOf 1 5)], ⟨[], some endMarker⟩) := rfl

theorem allowsAll_aroundMarker : Fifo.empty.AllowsAll aroundMarker := by
  refine ⟨.inl ⟨by decide, by simp [Fifo.empty]⟩, .inr ⟨rfl, rfl⟩, .inl ⟨by decide, ?_⟩, ?_, ?_,
    trivial⟩
  · simp [Fifo.call, Fifo.empty, burstOf, endMarker]
  · simp [Fifo.Allows]
  · simp [Fifo.Allows, Fifo.call, Fifo.empty, burstOf, endMarker]

theorem queue_is_fifo_aroundMarker :
    ∃ q, (Queue.empty 3).calls aroundMarker = some ((Fifo.empty.calls aroundMarker).1, q) ∧
      q.Represents 3 (Fifo.empty.calls aroundMarker).2 ∧
      ((Fifo.empty.calls aroundMarker).2.bursts.map BurstItem.pid).Nodup ∧
      ∀ pid, 1 ≤ pid → (∀ b ∈ (Fifo.empty.calls aroundMarker).2.bursts, b.pid ≠ pid) →
        q.dequeueAt pid = some (none, q) :=
  queue_is_fifo 3 allowsAll_aroundMarker

end Queue

/-! ## The marker at the head -/

/-- A queue, and whether its marker has been enqueued. -/
structure Ending where
  queue : Queue
  ended : Bool

namespace Ending

def start (q0 : ℤ) : Ending := ⟨Queue.empty q0, false⟩

/-- One marker is enqueued at most, and taking out by pid is for bursts. -/
def Permits (s : Ending) : QueueCall → Prop
  | .enqueue b => b.pid = -1 → s.ended = false
  | .dequeue => True
  | .dequeueAt pid => 1 ≤ pid

instance (s : Ending) : DecidablePred s.Permits
  | .enqueue _ => inferInstanceAs (Decidable (_ → _))
  | .dequeue => .isTrue trivial
  | .dequeueAt _ => inferInstanceAs (Decidable (_ ≤ _))

def act (s : Ending) (c : QueueCall) : Option Ending :=
  if s.Permits c then (s.queue.call c).map fun r => ⟨r.2, s.ended || c.isMarker⟩ else none

/-- Once it has been enqueued the marker is the last item. -/
def MarkerLast (s : Ending) : Prop :=
  s.ended = true → ∃ bursts m, s.queue.cells.follow Cell.next s.queue.brk s.queue.head =
    some (bursts ++ [m]) ∧ m.pid = -1

/-- A dequeue of the marker returns `NULL` and leaves the queue as it is. -/
def Refuses (s : Ending) : QueueCall → Prop
  | .dequeue => s.queue.atMarker = some true → s.queue.dequeue = some (none, s.queue)
  | _ => True

/-- The marker is not at the head when something is dequeued. -/
def HeadNotMarker (s : Ending) : QueueCall → Prop
  | .dequeue => s.queue.atMarker ≠ some true
  | _ => True

variable {s t : Ending} {c : QueueCall}

variable {q0 : ℤ} {f : Fifo}

/-- Where a call is not one of those that keep the marker, it takes it out. -/
theorem dequeue_of_not_admits (hended : s.ended = false → f.marker = none) (hperm : s.Permits c)
    (hc : ¬ f.Admits c) : c = .dequeue ∧ f.bursts = [] ∧ f.marker ≠ none := by
  cases c with
  | enqueue b => exact absurd (fun hb => hended (hperm hb)) hc
  | dequeue => exact ⟨rfl, by simpa [Fifo.Admits] using hc⟩
  | dequeueAt pid =>
    have hpos : 1 ≤ pid := hperm
    exact absurd (fun he : pid = -1 => by omega) hc

/-- A queue stays well formed; it only loses its marker when that is dequeued. -/
theorem holds_act (h : s.queue.Holds q0 f.bursts f.marker)
    (hended : s.ended = false → f.marker = none) (hact : s.act c = some t) :
    ∃ f' : Fifo, t.queue.Holds q0 f'.bursts f'.marker ∧ (t.ended = false → f'.marker = none) ∧
      (s.HeadNotMarker c → (s.ended = true → f.marker ≠ none) →
        t.ended = true → f'.marker ≠ none) := by
  simp only [act] at hact
  split_ifs at hact with hperm
  obtain ⟨⟨result, q⟩, hq, rfl⟩ := Option.map_eq_some_iff.mp hact
  by_cases hc : f.Admits c
  · obtain ⟨q', hq', hh⟩ := h.call hc
    obtain ⟨-, rfl⟩ : (f.call c).1 = result ∧ q' = q := by simpa using hq'.symm.trans hq
    refine ⟨(f.call c).2, hh, fun he => ?_, fun _ hmarker he => ?_⟩
    · simp only [Bool.or_eq_false_iff] at he
      exact Fifo.marker_call.mpr ⟨he.2, hended he.1⟩
    · intro hnone
      obtain ⟨hnew, hold⟩ := Fifo.marker_call.mp hnone
      exact hmarker (by simpa [hnew] using he) hold
  · obtain ⟨rfl, hnil, hmarker⟩ := dequeue_of_not_admits hended hperm hc
    rw [hnil] at h
    obtain ⟨q', hq', hh, -⟩ := h.dequeue_nil
    obtain ⟨-, rfl⟩ : f.marker = result ∧ q' = q := by simpa using hq'.symm.trans hq
    refine ⟨Fifo.empty, hh, fun _ => rfl, fun hhead => absurd ?_ hhead⟩
    simpa [h.atMarker_eq] using hmarker

/-- The queue is well formed, and has no marker before one is enqueued. -/
def Sane (s : Ending) : Prop :=
  ∃ q0, ∃ f : Fifo, s.queue.Holds q0 f.bursts f.marker ∧ (s.ended = false → f.marker = none)

/-- It also has the marker that was enqueued. -/
def Intact (s : Ending) : Prop :=
  ∃ q0, ∃ f : Fifo, s.queue.Holds q0 f.bursts f.marker ∧ (s.ended = false → f.marker = none) ∧
    (s.ended = true → f.marker ≠ none)

theorem intact_start (q0 : ℤ) : (start q0).Intact :=
  ⟨q0, Fifo.empty, Queue.holds_empty q0, fun _ => rfl, by simp [start]⟩

theorem Intact.sane (h : s.Intact) : s.Sane := by
  obtain ⟨q0, f, h, hended, -⟩ := h
  exact ⟨q0, f, h, hended⟩

theorem Sane.act (h : s.Sane) (hact : s.act c = some t) : t.Sane := by
  obtain ⟨q0, f, h, hended⟩ := h
  obtain ⟨f', h', hended', -⟩ := holds_act h hended hact
  exact ⟨q0, f', h', hended'⟩

theorem Intact.act (h : s.Intact) (hhead : s.HeadNotMarker c) (hact : s.act c = some t) :
    t.Intact := by
  obtain ⟨q0, f, h, hended, hmarker⟩ := h
  obtain ⟨f', h', hended', hmarker'⟩ := holds_act h hended hact
  exact ⟨q0, f', h', hended', hmarker' hhead hmarker⟩

theorem Intact.markerLast (h : s.Intact) : s.MarkerLast := by
  intro hs
  obtain ⟨q0, f, h, -, hmarker⟩ := h
  obtain ⟨m, hm⟩ := Option.ne_none_iff_exists'.mp (hmarker hs)
  refine ⟨f.bursts, m, ?_, h.marker_pid m hm⟩
  rw [h.represents.forward, Fifo.items, hm]
  rfl

/-- `dequeue` never refuses: what it may not take, it takes. -/
theorem Sane.refuses_iff (h : s.Sane) (c : QueueCall) : s.Refuses c ↔ s.HeadNotMarker c := by
  cases c with
  | enqueue | dequeueAt => exact .rfl
  | dequeue =>
    refine ⟨fun href hhead => ?_, fun hhead h => absurd h hhead⟩
    obtain ⟨q0, f, h, -⟩ := h
    obtain ⟨hnil, hmarker⟩ : f.bursts = [] ∧ f.marker ≠ none := by
      simpa [h.atMarker_eq] using hhead
    rw [hnil] at h
    obtain ⟨q', hq, -⟩ := h.dequeue_nil
    obtain ⟨hnone, -⟩ : none = f.marker ∧ _ := by simpa using (href hhead).symm.trans hq
    exact hmarker hnone.symm

/-- The marker stays the last item, and every dequeue of it is refused, in exactly the runs in
which it is never at the head when something is dequeued. -/
theorem end_marker_stays (q0 : ℤ) (cs : List QueueCall) :
    System.Always act MarkerLast (start q0) cs ∧ System.Meets act Refuses (start q0) cs ↔
      System.Meets act HeadNotMarker (start q0) cs := by
  have hstart := intact_start q0
  rw [System.meets_congr (I := Sane) hstart.sane (fun _ _ _ hs _ hact => hs.act hact)
    fun s c hs => hs.refuses_iff c]
  refine and_iff_right_of_imp fun hmeets => ?_
  exact hmeets.always hstart (fun _ _ _ hs hhead hact => hs.act hhead hact)
    fun _ hs => hs.markerLast

/-- The marker, and then a dequeue. -/
def markerOnly : List QueueCall := [.enqueue endMarker, .dequeue]

/-- It is dequeued, and the queue is empty. -/
theorem end_marker_dequeued :
    ¬ (System.Always act MarkerLast (start 0) markerOnly ∧
      System.Meets act Refuses (start 0) markerOnly) := by
  rintro ⟨hlast, -⟩
  let after : Ending := (System.perform act markerOnly (start 0)).get (by decide +kernel)
  have hafter := hlast.of_perform (t := after) (Option.some_get _).symm
  have hnil : after.queue.cells.follow Cell.next after.queue.brk after.queue.head = some [] := by
    decide +kernel
  obtain ⟨bursts, m, hfollow, -⟩ := hafter (by decide +kernel)
  simp [hnil] at hfollow

end Ending

end Cs342.Scheduler
