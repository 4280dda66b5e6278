import Cs342.Library.Strtoul
import Cs342.Scheduler.Conservation
import Cs342.TopK.ThreadTopK

/-!
# What the producer enqueues (sched.c)

`sched_file` turns the words of a file into bursts and sleeps, `sched_random` draws
them; both then put one marker into every queue. Where the file cannot be opened,
`parse_and_enqueue` returns before it reaches the markers. The CPUs work on whatever
the producer enqueues, so `Fed` runs them on any list of it.

The result of a function is `none` where it does not return: the process exits, a null
token reaches `atoi`, or a rejection loop draws no value it accepts.
-/

namespace Cs342.Scheduler

open Library TopK

/-- A burst of some length, or a pause in milliseconds. -/
inductive Event where
  | burst (length : ℤ)
  | sleep (time : ℤ)
  deriving DecidableEq, Repr

/-! ## The two sources -/

/-- The word `PL`. -/
def burstWord : CString := [80, 76].map byte

/-- The word `IAT`. -/
def sleepWord : CString := [73, 65, 84].map byte

/-- The loop over the tokens; an unknown one is passed over. -/
def parseTokens : List CString → Option (List Event)
  | [] => some []
  | word :: rest =>
    if strcmp word burstWord = 0 then
      match rest with
      | [] => none
      | tkn :: rest => (parseTokens rest).map (Event.burst (atoi tkn) :: ·)
    else if strcmp word sleepWord = 0 then
      match rest with
      | [] => none
      | tkn :: rest => (parseTokens rest).map (Event.sleep (atoi tkn) :: ·)
    else parseTokens rest

/-- What the file says. -/
def parse (file : List Byte) : Option (List Event) :=
  let text := file.takeWhile (· ≠ nul)
  parseTokens (tokens text.length text)

/-- The first accepted value; `draws` are those of the loop, and `ix1` is 0 before it. -/
def generateRandom (T1 T2 : ℤ) (draws : List ℤ) : Option ℤ :=
  (0 :: draws).find? fun ix1 => T1 ≤ ix1 ∧ ix1 ≤ T2

/-- The options of the program that concern the producer, the file as `fopen` finds it, and the
values drawn in each round. -/
structure Input where
  infile : CString
  file : Option (List Byte)
  T1 : ℤ
  T2 : ℤ
  L1 : ℤ
  L2 : ℤ
  PC : ℤ
  draws : ℕ → List ℤ

/-- The rounds of `sched_random`: bursts, with a pause between any two. -/
def randomEvents (input : Input) : Option (List Event) :=
  (List.range (toInt (2 * input.PC - 1)).toNat).mapM fun i =>
    if i % 2 = 0 then (generateRandom input.T1 input.T2 (input.draws i)).map Event.burst
    else (generateRandom input.L1 input.L2 (input.draws i)).map Event.sleep

/-! ## Enqueueing -/

/-- The enqueues of the producer, in order. -/
abbrev Supply (p : SchedProps) := List (Fin p.queuesSize × BurstItem)

/-- What the producer reads from outside for one burst: the clock, the queues as the scan for
the least loaded one sees them, and the memory it does not set. -/
structure Reading (p : SchedProps) where
  arrivalTime : ℤ
  seen : Seen p.queuesSize
  unset : ℤ

namespace SchedProps

variable (p : SchedProps)

/-- The loop of either source; `rr` is the round-robin index. -/
def enqueueEvents (readings : ℤ → Reading p) : List Event → ℤ → Fin p.queuesSize → Supply p
  | [], _, _ => []
  | .sleep _ :: events, nextPid, rr => enqueueEvents readings events nextPid rr
  | .burst length :: events, nextPid, rr =>
    let r := readings nextPid
    let i := p.select ⟨0, rr.pos⟩ rr r.seen
    (i, p.mkBurst ⟨nextPid, length⟩ r.arrivalTime i r.unset) ::
      enqueueEvents readings events (nextPid + 1) (p.nextIdx rr)

/-- The dummy items at the end. -/
def markers : Supply p := (List.finRange p.queuesSize).map fun i => (i, endMarker)

def enqueueAll (hN : 0 < p.N) (readings : ℤ → Reading p) (events : List Event) : Supply p :=
  p.enqueueEvents readings events 1 ⟨0, p.queuesSize_pos hN⟩ ++ p.markers

def parseAndEnqueue (hN : 0 < p.N) (readings : ℤ → Reading p) (file : Option (List Byte)) :
    Option (Supply p) :=
  match file with
  | none => some []
  | some file => (parse file).map (p.enqueueAll hN readings)

def schedFile (hN : 0 < p.N) (readings : ℤ → Reading p) (input : Input) : Option (Supply p) :=
  if input.infile = [] then none else p.parseAndEnqueue hN readings input.file

def schedRandom (hN : 0 < p.N) (readings : ℤ → Reading p) (input : Input) : Option (Supply p) :=
  (randomEvents input).map (p.enqueueAll hN readings)

/-- What has been enqueued when the producer returns to `schedule`. -/
def produced (hN : 0 < p.N) (readings : ℤ → Reading p) (input : Input) : Option (Supply p) :=
  match p.source with
  | .file => p.schedFile hN readings input
  | .random => p.schedRandom hN readings input

end SchedProps

/-! ## The CPUs on a supply -/

structure Fed (p : SchedProps) where
  supply : Supply p
  state : State p

namespace Fed

variable {p : SchedProps}

/-- The next enqueue of the producer, or a step of a CPU. -/
def act (f : Fed p) : Option (Fin p.N × ℤ) → Option (Fed p)
  | none =>
    match f.supply with
    | [] => none
    | (i, b) :: supply => ((f.state.queues i).enqueue b).map fun q => ⟨supply, f.state.setQueue i q⟩
  | some (c, now) => (f.state.cpu c now).map fun s => ⟨f.supply, s⟩

/-- All queues are empty and all CPUs at the top of their loop. -/
def init (supply : Supply p) (f : Fed p) : Prop :=
  f.supply = supply ∧ (∀ i, ∃ load, f.state.queues i = Queue.empty load) ∧
    (∃ load, f.state.finishedQueue = Queue.empty load) ∧ ∀ c, f.state.cpus c = .top

def system (supply : Supply p) : System (Fed p) := System.ofAct (init supply) act

end Fed

namespace Supply

variable {p : SchedProps}

/-- What goes into queue `i`. -/
def ofQueue (supply : Supply p) (i : Fin p.queuesSize) : List BurstItem :=
  (supply.filter fun e => e.1 = i).map Prod.snd

/-- Every queue gets exactly one marker, after its last burst. -/
def EndsWithMarkers (supply : Supply p) : Prop :=
  ∀ i, ∃ bursts, supply.ofQueue i = bursts ++ [endMarker] ∧ ∀ b ∈ bursts, b.pid ≠ -1

/-- Once the producer has returned, no CPU goes on polling: the next look at its queue ends
with a burst or with the end of its loop. -/
def LetsGo (supply : Supply p) : Prop :=
  ∀ f, (Fed.system supply).Reachable f → f.supply = [] → ∀ c, f.state.cpus c = .polling →
    ∀ now s, f.state.cpu c now = some s → s.cpus c ≠ .polling

end Supply

/-! ## Where the markers go -/

namespace SchedProps

variable {p : SchedProps} {readings : ℤ → Reading p}

/-- What is enqueued has a pid from `nextPid` on, and nothing of it is executed yet. -/
theorem of_mem_enqueueEvents {events : List Event} {nextPid : ℤ} {rr i : Fin p.queuesSize}
    {b : BurstItem} (h : (i, b) ∈ p.enqueueEvents readings events nextPid rr) :
    nextPid ≤ b.pid ∧ b.remainingTime = b.burstLength := by
  induction events generalizing nextPid rr with
  | nil => simp [enqueueEvents] at h
  | cons e events ih =>
    cases e with
    | sleep => exact ih h
    | burst length =>
      simp only [enqueueEvents, List.mem_cons, Prod.mk.injEq] at h
      rcases h with ⟨-, rfl⟩ | h
      · exact ⟨le_rfl, rfl⟩
      · obtain ⟨hpid, hremaining⟩ := ih h
        exact ⟨by omega, hremaining⟩

theorem ofQueue_markers (i : Fin p.queuesSize) : p.markers.ofQueue i = [endMarker] := by
  have hfilter : (List.finRange p.queuesSize).filter (fun k => k = i) = [i] := by
    rw [List.filter_eq, List.count_eq_one_of_mem (List.nodup_finRange _) (List.mem_finRange i)]
    rfl
  simp [Supply.ofQueue, markers, List.filter_map, Function.comp_def, hfilter]

theorem endsWithMarkers (hN : 0 < p.N) (events : List Event) :
    (p.enqueueAll hN readings events).EndsWithMarkers := by
  intro i
  refine ⟨Supply.ofQueue (p.enqueueEvents readings events 1 ⟨0, p.queuesSize_pos hN⟩) i, ?_, ?_⟩
  · rw [← ofQueue_markers i]
    simp [Supply.ofQueue, enqueueAll]
  · intro b hb
    obtain ⟨e, he, rfl⟩ := List.mem_map.mp hb
    have := (of_mem_enqueueEvents (i := e.1) (b := e.2) (List.mem_filter.mp he).1).1
    omega

end SchedProps

/-! ## What the CPUs find -/

namespace State

variable {p : SchedProps} {s t : State p} {m : Fin p.queuesSize → Option BurstItem}

/-- The queues are well formed, with these markers, and no marker is elsewhere. -/
structure Sound (s : State p) (m : Fin p.queuesSize → Option BurstItem) : Prop where
  queues : ∀ i, (s.queues i).Sound (m i)
  finished : s.finishedQueue.Sound none
  hands : ∀ c b, s.cpus c = .running b → b.pid ≠ -1

theorem Sound.update (h : s.Sound m) {i : Fin p.queuesSize} {q : Queue} {mk : Option BurstItem}
    (hq : q.Sound mk) : (s.setQueue i q).Sound (Function.update m i mk) :=
  { h with
    queues := fun k => by
      rcases eq_or_ne k i with rfl | hk
      · simpa [State.setQueue] using hq
      · simpa [State.setQueue, hk] using h.queues k }

theorem Sound.setQueue (h : s.Sound m) {i : Fin p.queuesSize} {q : Queue} (hq : q.Sound (m i)) :
    (s.setQueue i q).Sound m := by
  have hupdate : (s.setQueue i q).Sound (Function.update m i (m i)) := h.update hq
  rwa [Function.update_eq_self] at hupdate

theorem Sound.setCpu (h : s.Sound m) {c : Fin p.N} {l : CpuState}
    (hl : ∀ b, l = .running b → b.pid ≠ -1) : (s.setCpu c l).Sound m :=
  { h with
    hands := by
      apply (Function.forall_update_iff s.cpus fun _ l => ∀ b, l = .running b → b.pid ≠ -1).mpr
      exact ⟨hl, fun d _ => h.hands d⟩ }

/-- A CPU leaves the queues well formed and their markers in place. -/
theorem Sound.cpu (h : s.Sound m) {c : Fin p.N} (st : CpuEffect s c t) : t.Sound m := by
  cases st with
  | poll => exact h.setCpu (by simp)
  | exit => exact h.setCpu (by simp)
  | @take b q hpolling hsize hmark hpick =>
    obtain ⟨pre, post, hsplit, hsound, -⟩ := (h.queues (p.queue c)).pick hsize hmark hpick
    refine (h.setQueue hsound).setCpu fun x hx => ?_
    obtain rfl := CpuState.running.inj hx
    exact (h.queues (p.queue c)).pid_ne b (by simp [hsplit])
  | @requeue b q hrun hslice henq =>
    have hpid : { b with remainingTime := b.remainingTime - p.Q }.pid ≠ -1 := h.hands c b hrun
    exact (h.setQueue ((h.queues (p.queue c)).enqueue hpid henq).1).setCpu (by simp)
  | @finish b b' q hrun hlast hjob hrem henq =>
    have hpid : b'.pid ≠ -1 := by
      rw [show b'.pid = b.pid from congrArg Job.pid hjob]
      exact h.hands c b hrun
    have hfin : (s.setFinished q).Sound m :=
      { h with finished := (h.finished.enqueue hpid henq).1 }
    exact hfin.setCpu (by simp)

/-- A CPU at a queue with a marker does not poll twice. -/
theorem Sound.cpu_ne_polling (h : s.Sound m) {c : Fin p.N} (hm : m (p.queue c) ≠ none)
    (hpolling : s.cpus c = .polling) (st : CpuEffect s c t) : t.cpus c ≠ .polling := by
  obtain ⟨q0, hq⟩ := h.queues (p.queue c)
  have hsize : 0 < (s.queues (p.queue c)).size := by
    have := hq.size_eq
    cases hmk : m (p.queue c) with
    | none => exact absurd hmk hm
    | some x =>
      rw [hmk] at this
      simp at this
      omega
  cases st with
  | poll idle =>
    rcases idle with ⟨htop, -⟩ | ⟨-, hempty⟩
    · simp [hpolling] at htop
    · exact absurd hsize hempty
  | exit | take | requeue | finish => simp [State.setCpu]

end State

namespace Supply

variable {p : SchedProps} {supply : Supply p} {i k : Fin p.queuesSize} {b : BurstItem}

@[simp] theorem ofQueue_nil : ofQueue ([] : Supply p) i = [] := rfl

@[simp] theorem ofQueue_cons_self : ofQueue ((i, b) :: supply) i = b :: ofQueue supply i := by
  simp [ofQueue]

theorem ofQueue_cons_of_ne (h : k ≠ i) : ofQueue ((k, b) :: supply) i = ofQueue supply i := by
  simp [ofQueue, h]

end Supply

namespace Fed

variable {p : SchedProps} {supply : Supply p} {f g : Fed p}

/-- A queue has its marker when nothing more is to come for it. -/
structure Inv (f : Fed p) (m : Fin p.queuesSize → Option BurstItem) : Prop where
  sound : f.state.Sound m
  supply : ∀ i, m i = none ∧ (∃ bursts, f.supply.ofQueue i = bursts ++ [endMarker] ∧
      ∀ b ∈ bursts, b.pid ≠ -1) ∨
    m i = some endMarker ∧ f.supply.ofQueue i = []

theorem Inv.feed {m : Fin p.queuesSize → Option BurstItem} (h : f.Inv m)
    (hact : f.act none = some g) : ∃ m', g.Inv m' := by
  obtain ⟨sup, s⟩ := f
  cases sup with
  | nil => simp [act] at hact
  | cons e rest =>
    obtain ⟨i, b⟩ := e
    simp only [act, Option.map_eq_some_iff] at hact
    obtain ⟨q, hq, rfl⟩ := hact
    have hsupply := h.supply i
    simp only [Supply.ofQueue_cons_self] at hsupply
    obtain ⟨hnone, bursts, hsplit, hpid⟩ | ⟨-, hnil⟩ := hsupply
    · have hsound := hnone ▸ h.sound.queues i
      cases bursts with
      | nil =>
        -- the marker: nothing is left for this queue
        obtain ⟨rfl, hrest⟩ : b = endMarker ∧ Supply.ofQueue rest i = [] := by simpa using hsplit
        refine ⟨Function.update m i (some endMarker),
          h.sound.update (hsound.enqueue_marker hq).1, fun k => ?_⟩
        rcases eq_or_ne i k with rfl | hk
        · exact .inr ⟨by simp, hrest⟩
        · simpa [Supply.ofQueue_cons_of_ne hk, hk.symm] using h.supply k
      | cons x bursts =>
        obtain ⟨rfl, hrest⟩ : b = x ∧ Supply.ofQueue rest i = bursts ++ [endMarker] := by
          simpa using hsplit
        refine ⟨m, h.sound.setQueue (hnone ▸ (hsound.enqueue (hpid b (by simp)) hq).1),
          fun k => ?_⟩
        rcases eq_or_ne i k with rfl | hk
        · exact .inl ⟨hnone, bursts, hrest, fun y hy => hpid y (by simp [hy])⟩
        · simpa [Supply.ofQueue_cons_of_ne hk] using h.supply k
    · exact absurd hnil (List.cons_ne_nil _ _)

theorem exists_inv (hends : supply.EndsWithMarkers) (h : (system supply).Reachable f) :
    ∃ m, f.Inv m := by
  refine h.invariant (I := fun f => ∃ m, f.Inv m) ?_ ?_
  · rintro f ⟨rfl, hqueues, ⟨load, hfin⟩, hcpus⟩
    refine ⟨fun _ => none, ⟨fun i => ?_, hfin ▸ (Queue.sound_empty load).1, by simp [hcpus]⟩,
      fun i => .inl ⟨rfl, hends i⟩⟩
    obtain ⟨load, hq⟩ := hqueues i
    exact hq ▸ (Queue.sound_empty load).1
  · rintro f g - ⟨m, hm⟩ ⟨a, hact⟩
    cases a with
    | none => exact hm.feed hact
    | some e =>
      obtain ⟨c, now⟩ := e
      obtain ⟨s, hs, rfl⟩ := Option.map_eq_some_iff.mp hact
      exact ⟨m, hm.sound.cpu (State.cpu_effect hs), hm.supply⟩

/-- With a marker at the end of every queue no CPU is left behind. -/
theorem letsGo_of_endsWithMarkers (hends : supply.EndsWithMarkers) : supply.LetsGo := by
  intro f hf hempty c hpolling now s hcpu
  obtain ⟨m, hm⟩ := exists_inv hends hf
  refine hm.sound.cpu_ne_polling ?_ hpolling (State.cpu_effect hcpu)
  rcases hm.supply (p.queue c) with ⟨-, bursts, hsplit, -⟩ | ⟨hm, -⟩
  · simp [hempty] at hsplit
  · simp [hm]

/-- All CPUs at the top of their loop, with empty queues. -/
def start (hN : 0 < p.N) (supply : Supply p) : Fed p :=
  ⟨supply, fun _ => Queue.empty 0, Queue.empty 0, [], ⟨0, p.queuesSize_pos hN⟩, 0, fun _ => .top⟩

end Fed

namespace SchedProps

variable {p : SchedProps} {readings : ℤ → Reading p} {input : Input} {supply : Supply p}

/-- Without markers a CPU polls an empty queue again and again. -/
theorem not_letsGo_nil (hN : 0 < p.N) : ¬ Supply.LetsGo (p := p) [] := by
  intro h
  let c : Fin p.N := ⟨0, hN⟩
  let f : Fed p := Fed.start hN []
  let g : Fed p := ⟨[], f.state.setCpu c .polling⟩
  have hpolling : g.state.cpus c = .polling := by simp [g, State.setCpu]
  have hstep : f.act (some (c, 0)) = some g := by
    simp [Fed.act, State.cpu, f, g, Fed.start, Queue.atMarker, Queue.empty]
  have hinit : Fed.init [] f := ⟨rfl, fun _ => ⟨0, rfl⟩, ⟨0, rfl⟩, fun _ => rfl⟩
  have hreach : (Fed.system []).Reachable g := .next (.start hinit) ⟨_, hstep⟩
  have hstay : g.state.cpu c 0 = some g.state := by
    simp [State.cpu, g, f, State.setCpu, Fed.start, Queue.empty]
  exact h g hreach rfl c hpolling 0 g.state hstay hpolling

/-- The producer has put a marker into every queue when it returns, and lets the CPUs go, exactly
when the bursts are random or the file could be opened. -/
theorem producer_ends (hN : 0 < p.N) (h : p.produced hN readings input = some supply) :
    supply.EndsWithMarkers ∧ supply.LetsGo ↔ p.source = .random ∨ input.file ≠ none := by
  have hgood (events : List Event) (he : supply = p.enqueueAll hN readings events) :
      supply.EndsWithMarkers ∧ supply.LetsGo := by
    have hends : (p.enqueueAll hN readings events).EndsWithMarkers := endsWithMarkers hN events
    rw [he]
    exact ⟨hends, Fed.letsGo_of_endsWithMarkers hends⟩
  cases hsource : p.source with
  | random =>
    simp only [produced, hsource, schedRandom, Option.map_eq_some_iff] at h
    obtain ⟨events, -, he⟩ := h
    exact iff_of_true (hgood events he.symm) (.inl rfl)
  | file =>
    simp only [produced, hsource, schedFile, Option.ite_none_left_eq_some] at h
    obtain ⟨-, h⟩ := h
    cases hfile : input.file with
    | none =>
      obtain rfl : [] = supply := by simpa [parseAndEnqueue, hfile] using h
      exact iff_of_false (fun hends => not_letsGo_nil hN hends.2) (by simp)
    | some file =>
      simp only [parseAndEnqueue, hfile, Option.map_eq_some_iff] at h
      obtain ⟨events, -, he⟩ := h
      exact iff_of_true (hgood events he.symm) (.inr (by simp))

/-- One CPU, and a file with the bursts of lengths 5 and 7. -/
def lone (source : ScheduleSource) : SchedProps where
  N := 1
  Q := 2
  sap := .multi
  qs := .rm
  alg := .fcfs
  source := source

def quiet : ℤ → Reading (lone .file) := fun _ => ⟨0, ⟨0, fun _ => 0, fun _ => 0⟩, 0⟩

/-- The option `-i x`, with the file as it is found. -/
def fileInput (file : Option (List Byte)) : Input where
  infile := [120].map byte
  file := file
  T1 := 10
  T2 := 1000
  L1 := 10
  L2 := 500
  PC := 10
  draws _ := []

/-- `PL 5 IAT 10 PL 7`. -/
def twoBursts : List Byte :=
  [80, 76, 32, 53, 10, 73, 65, 84, 32, 49, 48, 10, 80, 76, 32, 55].map byte

example : parse twoBursts = some [.burst 5, .sleep 10, .burst 7] := by decide +kernel

def twoSupply : Supply (lone .file) :=
  (produced (lone .file) (by decide) quiet (fileInput (some twoBursts))).get (by decide +kernel)

theorem producer_ends_twoSupply :
    twoSupply.EndsWithMarkers ∧ twoSupply.LetsGo ↔
      (lone .file).source = .random ∨ (fileInput (some twoBursts)).file ≠ none :=
  @producer_ends _ quiet _ _ (by decide) (Option.some_get _).symm

/-- A file that is not there: the producer returns without a marker. -/
theorem no_marker_missing :
    ∃ supply, (lone .file).produced (by decide) quiet (fileInput none) = some supply ∧
      ¬ supply.EndsWithMarkers := by
  refine ⟨[], by decide +kernel, fun h => ?_⟩
  obtain ⟨bursts, hsplit, -⟩ := h ⟨0, by decide⟩
  simp at hsplit

end SchedProps

end Cs342.Scheduler
