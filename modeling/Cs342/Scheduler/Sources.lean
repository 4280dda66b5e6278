import Mathlib.Data.List.DropRight
import Cs342.Scheduler.Producer
import Cs342.Scheduler.Slices

/-!
# What the two sources create

The bursts that either source enqueues have the pids 1, 2, 3 and so on, and nothing left
out of their length. `parse_and_enqueue` creates one for each `PL` that is looked at as a
command, but hands a null token to `atoi` when the file ends behind a command.
`sched_random` draws its bursts within the limits of the pauses and its pauses within
the limits of the bursts.
-/

namespace Cs342.Scheduler

open Library TopK

/-! ## Bursts and their events -/

def Event.length? : Event → Option ℤ
  | .burst length => some length
  | .sleep _ => none

/-- The lengths of the bursts, in order. -/
def lengths (events : List Event) : List ℤ := events.filterMap Event.length?

/-- Bursts of these lengths, numbered from `pid` on. -/
def numbered (pid : ℕ) (lengths : List ℤ) : List Job :=
  (lengths.zipIdx pid).map fun (length, pid) => ⟨pid, length⟩

/-- The bursts of a supply, without the markers. -/
def Supply.bursts {p : SchedProps} (supply : Supply p) : List BurstItem :=
  (supply.map Prod.snd).filter fun b => b.pid ≠ -1

namespace SchedProps

variable {p : SchedProps} {readings : ℤ → Reading p}

theorem bursts_markers : p.markers.bursts = [] := by
  simp [Supply.bursts, markers, endMarker]

theorem enqueueEvents_jobs (events : List Event) (pid : ℕ) (rr : Fin p.queuesSize) :
    (p.enqueueEvents readings events pid rr).map (fun e => e.2.job) =
      numbered pid (lengths events) := by
  induction events generalizing pid rr with
  | nil => rfl
  | cons e events ih =>
    cases e with
    | sleep => exact ih pid rr
    | burst length =>
      have hrest := ih (pid + 1) (p.nextIdx rr)
      rw [enqueueEvents, List.map_cons, mkBurst_job]
      exact congrArg₂ List.cons rfl (by exact_mod_cast hrest)

/-- The bursts of a source are those of its events, numbered from 1 on. -/
theorem enqueueAll_bursts (readings : ℤ → Reading p) (hN : 0 < p.N) (events : List Event) :
    (p.enqueueAll hN readings events).bursts.map BurstItem.job = numbered 1 (lengths events) ∧
      ∀ b ∈ (p.enqueueAll hN readings events).bursts, b.remainingTime = b.burstLength := by
  have hbursts : (p.enqueueAll hN readings events).bursts =
      (p.enqueueEvents readings events 1 ⟨0, p.queuesSize_pos hN⟩).map Prod.snd := by
    have hall : ((p.enqueueEvents readings events 1 ⟨0, p.queuesSize_pos hN⟩).map
        Prod.snd).filter (fun b => b.pid ≠ -1) =
        (p.enqueueEvents readings events 1 ⟨0, p.queuesSize_pos hN⟩).map Prod.snd := by
      refine List.filter_eq_self.mpr fun b hb => ?_
      obtain ⟨e, he, rfl⟩ := List.mem_map.mp hb
      have := (of_mem_enqueueEvents (i := e.1) (b := e.2) he).1
      simp only [ne_eq, decide_not, Bool.not_eq_true', decide_eq_false_iff_not]
      omega
    have hmarkers : (p.markers.map Prod.snd).filter (fun b => b.pid ≠ -1) = [] := bursts_markers
    rw [Supply.bursts, enqueueAll, List.map_append, List.filter_append, hall, hmarkers,
      List.append_nil]
  rw [hbursts]
  constructor
  · rw [List.map_map]
    exact enqueueEvents_jobs events 1 _
  · intro b hb
    obtain ⟨e, he, rfl⟩ := List.mem_map.mp hb
    exact (of_mem_enqueueEvents (i := e.1) (b := e.2) he).2

end SchedProps

/-! ## The input file -/

/-- `PL` and `IAT`, which take the next token as their argument. -/
def isCommandWord (tkn : CString) : Bool := tkn = burstWord ∨ tkn = sleepWord

/-- Whether the token at a position is in command position: it is not the argument of the one
before. -/
def commandAt (tkns : List CString) : ℕ → Bool
  | 0 => true
  | i + 1 => !(commandAt tkns i && tkns[i]?.any isCommandWord)

/-- For each `PL` in command position the value of the token that follows it. -/
def burstLengths (tkns : List CString) : List ℤ :=
  (List.range tkns.length).filterMap fun i =>
    if commandAt tkns i && tkns[i]? == some burstWord then some (atoi (tkns[i + 1]?.getD []))
    else none

/-- The tokens of a file. -/
def fileTokens (file : List Byte) : List CString :=
  let text := file.takeWhile (· ≠ nul)
  tokens text.length text

theorem parse_eq (file : List Byte) : parse file = parseTokens (fileTokens file) := rfl

variable {pre tkns : List CString} {w x : CString}

theorem isCommandWord_burst (h : strcmp w burstWord = 0) : isCommandWord w = true := by
  simp [isCommandWord, strcmp_eq_zero_iff.mp h]

theorem isCommandWord_sleep (h : strcmp w sleepWord = 0) : isCommandWord w = true := by
  simp [isCommandWord, strcmp_eq_zero_iff.mp h]

theorem isCommandWord_unknown (hburst : ¬ strcmp w burstWord = 0)
    (hsleep : ¬ strcmp w sleepWord = 0) : isCommandWord w = false := by
  rw [strcmp_eq_zero_iff] at hburst hsleep
  simp [isCommandWord, hburst, hsleep]

/-- Behind a command position the tokens are looked at as from the start. -/
theorem commandAt_append (h : commandAt (pre ++ tkns) pre.length = true) (i : ℕ) :
    commandAt (pre ++ tkns) (pre.length + i) = commandAt tkns i := by
  induction i with
  | zero => exact h
  | succ i ih =>
    rw [← Nat.add_assoc, commandAt, commandAt, ih, List.getElem?_append_right (by omega),
      Nat.add_sub_cancel_left]

theorem burstLengths_append (h : commandAt (pre ++ tkns) pre.length = true) :
    burstLengths (pre ++ tkns) = (List.range pre.length).filterMap (fun i =>
      if commandAt (pre ++ tkns) i && (pre ++ tkns)[i]? == some burstWord then
        some (atoi ((pre ++ tkns)[i + 1]?.getD [])) else none) ++ burstLengths tkns := by
  rw [burstLengths, List.length_append, List.range_add, List.filterMap_append, List.filterMap_map,
    burstLengths]
  refine congrArg _ (List.filterMap_congr fun i _ => ?_)
  simp only [Function.comp_apply, commandAt_append h]
  rw [List.getElem?_append_right (by omega), Nat.add_sub_cancel_left, Nat.add_assoc,
    List.getElem?_append_right (by omega), Nat.add_sub_cancel_left]

theorem burstLengths_unknown (hw : isCommandWord w = false) :
    burstLengths (w :: tkns) = burstLengths tkns := by
  have hcommand : commandAt ([w] ++ tkns) [w].length = true := by simp [commandAt, hw]
  have hne : w ≠ burstWord := by simp_all [isCommandWord]
  have := burstLengths_append hcommand
  simpa [commandAt, hne] using this

theorem burstLengths_command (hw : isCommandWord w = true) :
    burstLengths (w :: x :: tkns) =
      if w = burstWord then atoi x :: burstLengths tkns else burstLengths tkns := by
  have hcommand : commandAt ([w, x] ++ tkns) [w, x].length = true := by simp [commandAt, hw]
  have hfirst : commandAt (w :: x :: tkns) 0 = true := rfl
  have hargument : commandAt (w :: x :: tkns) 1 = false := by simp [commandAt, hw]
  have hsplit := burstLengths_append hcommand
  simp only [List.cons_append, List.nil_append] at hsplit
  rw [hsplit]
  by_cases hburst : w = burstWord
  · subst hburst
    simp [List.range_succ, hfirst, hargument]
  · simp [List.range_succ, hargument, hburst]

/-- What the loop finds where it does not hand a null token to `atoi`. -/
theorem lengths_of_parseTokens {events : List Event} (h : parseTokens tkns = some events) :
    lengths events = burstLengths tkns := by
  fun_induction parseTokens tkns generalizing events with
  | case1 =>
    obtain rfl := Option.some.inj h
    rfl
  | case2 => simp at h
  | case3 w hw x tkns ih =>
    obtain ⟨rest, hrest, rfl⟩ := Option.map_eq_some_iff.mp h
    rw [burstLengths_command (isCommandWord_burst hw), if_pos (strcmp_eq_zero_iff.mp hw),
      ← ih hrest]
    rfl
  | case4 => simp at h
  | case5 w hburst hw x tkns ih =>
    obtain ⟨rest, hrest, rfl⟩ := Option.map_eq_some_iff.mp h
    rw [burstLengths_command (isCommandWord_sleep hw),
      if_neg fun heq => hburst (strcmp_eq_zero_iff.mpr heq), ← ih hrest]
    rfl
  | case6 w tkns hburst hsleep ih =>
    rw [burstLengths_unknown (isCommandWord_unknown hburst hsleep), ih h]

/-- A token that is no command word does not change the command words at the end. -/
theorem rtakeWhile_unknown (hw : isCommandWord w = false) :
    (w :: tkns).rtakeWhile isCommandWord = tkns.rtakeWhile isCommandWord := by
  induction tkns using List.reverseRecOn with
  | nil => simp [List.rtakeWhile, hw]
  | append_singleton tkns y ih =>
    rw [← List.cons_append, List.rtakeWhile_concat, List.rtakeWhile_concat, ih]

/-- A command and its argument leave the number of command words at the end even or odd. -/
theorem even_rtakeWhile_command (hw : isCommandWord w = true) :
    Even ((w :: x :: tkns).rtakeWhile isCommandWord).length ↔
      Even (tkns.rtakeWhile isCommandWord).length := by
  induction tkns using List.reverseRecOn with
  | nil =>
    have hpair : [w, x] = [w] ++ [x] := rfl
    rw [hpair, List.rtakeWhile_concat]
    split_ifs <;> simp [List.rtakeWhile, hw]
  | append_singleton tkns y ih =>
    rw [← List.cons_append, ← List.cons_append, List.rtakeWhile_concat, List.rtakeWhile_concat]
    split_ifs
    · simp only [List.length_append, List.length_singleton, Nat.even_add_one, ih]
    · rfl

/-- The loop hands a null token to `atoi` unless the number of command words at the end is
even. -/
theorem parseTokens_isSome (tkns : List CString) :
    (parseTokens tkns).isSome ↔ Even (tkns.rtakeWhile isCommandWord).length := by
  fun_induction parseTokens tkns with
  | case1 => simp
  | case2 w hw => simp [List.rtakeWhile, isCommandWord_burst hw]
  | case3 w hw x tkns ih =>
    rw [Option.isSome_map, ih, even_rtakeWhile_command (isCommandWord_burst hw)]
  | case4 w hburst hw => simp [List.rtakeWhile, isCommandWord_sleep hw]
  | case5 w hburst hw x tkns ih =>
    rw [Option.isSome_map, ih, even_rtakeWhile_command (isCommandWord_sleep hw)]
  | case6 w tkns hburst hsleep ih =>
    rw [ih, rtakeWhile_unknown (isCommandWord_unknown hburst hsleep)]

namespace SchedProps

variable {p : SchedProps}

/-- No null token reaches `atoi` and there is one burst for each `PL` in command position, numbered
in the order of the file and as long as the next token says, exactly when the number of words
`PL` and `IAT` at the end of the file is even. -/
theorem parser_handles_iff (hN : 0 < p.N) (readings : ℤ → Reading p) (file : List Byte) :
    (∃ supply, p.parseAndEnqueue hN readings (some file) = some supply ∧
      supply.bursts.map BurstItem.job = numbered 1 (burstLengths (fileTokens file)) ∧
      ∀ b ∈ supply.bursts, b.remainingTime = b.burstLength) ↔
    Even ((fileTokens file).rtakeWhile isCommandWord).length := by
  rw [← parseTokens_isSome, Option.isSome_iff_exists]
  constructor
  · rintro ⟨supply, hsupply, -⟩
    obtain ⟨events, hevents, -⟩ := Option.map_eq_some_iff.mp hsupply
    exact ⟨events, hevents⟩
  · rintro ⟨events, hevents⟩
    obtain ⟨hjobs, hremaining⟩ := enqueueAll_bursts readings hN events
    refine ⟨p.enqueueAll hN readings events, ?_, ?_, hremaining⟩
    · simp [parseAndEnqueue, parse_eq, hevents]
    · rw [hjobs, lengths_of_parseTokens hevents]

example : burstLengths (fileTokens twoBursts) = [5, 7] := by decide +kernel

theorem parser_handles_iff_twoBursts :
    (∃ supply, (lone .file).parseAndEnqueue (by decide) quiet (some twoBursts) = some supply ∧
      supply.bursts.map BurstItem.job = numbered 1 (burstLengths (fileTokens twoBursts)) ∧
      ∀ b ∈ supply.bursts, b.remainingTime = b.burstLength) ↔
    Even ((fileTokens twoBursts).rtakeWhile isCommandWord).length :=
  parser_handles_iff (by decide) quiet twoBursts

/-- `PL 5 IAT`, cut off behind the last command. -/
def cutOff : List Byte := [80, 76, 32, 53, 32, 73, 65, 84].map byte

/-- The argument of the last command is a null token. -/
theorem parser_fails_cutOff :
    (lone .file).parseAndEnqueue (by decide) quiet (some cutOff) = none := by decide +kernel

end SchedProps

/-! ## Random bursts -/

/-- Of the value 0 and those drawn after it the first that lies between the limits has the
property. -/
def FirstWithin (lo hi : ℤ) (draws : List ℤ) (P : ℤ → Prop) : Prop :=
  ∃ pre x post, 0 :: draws = pre ++ x :: post ∧ (∀ y ∈ pre, ¬ (lo ≤ y ∧ y ≤ hi)) ∧
    (lo ≤ x ∧ x ≤ hi) ∧ P x

theorem firstWithin_iff {lo hi x : ℤ} {draws : List ℤ} {P : ℤ → Prop}
    (h : generateRandom lo hi draws = some x) : FirstWithin lo hi draws P ↔ P x := by
  constructor
  · rintro ⟨pre, y, post, hsplit, hpre, hy, hP⟩
    have hfirst : generateRandom lo hi draws = some y :=
      List.find?_eq_some_iff_append.mpr ⟨decide_eq_true hy, pre, post, hsplit,
        by simpa only [Bool.not_eq_true', decide_eq_false_iff_not] using hpre⟩
    rwa [Option.some.inj (h.symm.trans hfirst)]
  · intro hP
    obtain ⟨hx, pre, post, hsplit, hpre⟩ := List.find?_eq_some_iff_append.mp h
    simp only [Bool.not_eq_true', decide_eq_false_iff_not] at hpre
    exact ⟨pre, x, post, hsplit, hpre, of_decide_eq_true hx, hP⟩

/-- As the option `-r` documents it: `PC` bursts between `L1` and `L2` long, numbered from 1 on,
and between any two of them a pause of `T1` to `T2` milliseconds. -/
structure AsDocumented (input : Input) (events : List Event) (bursts : List BurstItem) : Prop where
  rounds : (events.length : ℤ) = 2 * input.PC - 1
  count : (bursts.length : ℤ) = input.PC
  burst : ∀ (k : ℕ) b, bursts[k]? = some b → events[2 * k]? = some (.burst b.burstLength) ∧
    b.pid = (k : ℤ) + 1 ∧ b.remainingTime = b.burstLength ∧
    input.L1 ≤ b.burstLength ∧ b.burstLength ≤ input.L2
  pause : ∀ k : ℕ, (k : ℤ) + 1 < input.PC → ∃ time, events[2 * k + 1]? = some (.sleep time) ∧
    1000 * input.T1 ≤ usleepArg time ∧ usleepArg time ≤ 1000 * input.T2

theorem forall₂_of_mapM {α β : Type*} {f : α → Option β} {xs : List α} {l : List β}
    (h : xs.mapM f = some l) : List.Forall₂ (fun x y => f x = some y) xs l := by
  induction xs generalizing l with
  | nil =>
    obtain rfl := Option.some.inj h
    exact .nil
  | cons x xs ih =>
    simp only [List.mapM_cons, Option.bind_eq_bind, Option.bind_eq_some_iff] at h
    obtain ⟨y, hy, ys, hys, heq⟩ := h
    obtain rfl := Option.some.inj heq
    exact .cons hy (ih hys)

variable {input : Input} {events : List Event}

/-- Every round of `sched_random` has drawn an event: a burst in the even ones and a pause in the
odd ones. -/
theorem randomEvents_get (h : randomEvents input = some events) :
    events.length = (toInt (2 * input.PC - 1)).toNat ∧
    (∀ k, 2 * k < events.length → ∃ x, events[2 * k]? = some (.burst x) ∧
      generateRandom input.T1 input.T2 (input.draws (2 * k)) = some x) ∧
    ∀ k, 2 * k + 1 < events.length → ∃ x, events[2 * k + 1]? = some (.sleep x) ∧
      generateRandom input.L1 input.L2 (input.draws (2 * k + 1)) = some x := by
  have hall := forall₂_of_mapM h
  have hlength := hall.length_eq
  rw [List.length_range] at hlength
  have hget (i : ℕ) (hi : i < events.length) := hall.get (i := i) (by simpa [hlength] using hi) hi
  simp only [List.get_eq_getElem, List.getElem_range] at hget
  refine ⟨hlength.symm, fun k hk => ?_, fun k hk => ?_⟩
  · have hk' := hget (2 * k) hk
    rw [if_pos (by omega), Option.map_eq_some_iff] at hk'
    obtain ⟨x, hx, heq⟩ := hk'
    exact ⟨x, by rw [List.getElem?_eq_getElem hk, heq], hx⟩
  · have hk' := hget (2 * k + 1) hk
    rw [if_neg (by omega), Option.map_eq_some_iff] at hk'
    obtain ⟨x, hx, heq⟩ := hk'
    exact ⟨x, by rw [List.getElem?_eq_getElem hk, heq], hx⟩

/-- Where bursts and pauses alternate, the lengths are those of the even rounds. -/
theorem lengths_get (heven : ∀ k, 2 * k < events.length → ∃ x, events[2 * k]? = some (.burst x))
    (hodd : ∀ k, 2 * k + 1 < events.length → ∃ x, events[2 * k + 1]? = some (.sleep x)) :
    (lengths events).length = (events.length + 1) / 2 ∧
      ∀ k, (lengths events)[k]? = events[2 * k]?.bind Event.length? := by
  induction events using List.twoStepInduction with
  | nil => simp [lengths]
  | singleton e =>
    obtain ⟨x, hx⟩ := heven 0 (by simp)
    obtain rfl : e = .burst x := by simpa using hx
    refine ⟨by simp [lengths, Event.length?], fun k => ?_⟩
    cases k <;> rfl
  | cons_cons e f events ih _ =>
    obtain ⟨x, hx⟩ := heven 0 (by simp)
    obtain rfl : e = .burst x := by simpa using hx
    obtain ⟨t, ht⟩ := hodd 0 (by simp)
    obtain rfl : f = .sleep t := by simpa using ht
    obtain ⟨hlength, hget⟩ := ih
      (fun k hk => by simpa [Nat.mul_add] using heven (k + 1) (by simp; omega))
      (fun k hk => by simpa [Nat.mul_add] using hodd (k + 1) (by simp; omega))
    have hcons : lengths (.burst x :: .sleep t :: events) = x :: lengths events := rfl
    rw [hcons]
    refine ⟨by simp only [List.length_cons, hlength]; omega, fun k => ?_⟩
    cases k with
    | zero => rfl
    | succ k => simpa [Nat.mul_add] using hget k

theorem burst_of_length {e : Event} {length : ℤ} (h : e.length? = some length) :
    e = .burst length := by
  cases e with
  | burst => exact congrArg _ (Option.some.inj h)
  | sleep => simp [Event.length?] at h

theorem numbered_get (pid : ℕ) (ls : List ℤ) (k : ℕ) :
    (numbered pid ls)[k]? = ls[k]?.map fun length => ⟨(pid + k : ℕ), length⟩ := by
  simp [numbered, Function.comp_def]

namespace SchedProps

variable {p : SchedProps} {readings : ℤ → Reading p}

/-- The bursts that are enqueued and the rounds they were drawn in. -/
theorem random_bursts (readings : ℤ → Reading p) (hN : 0 < p.N)
    (h : randomEvents input = some events) :
    let bursts := (p.enqueueAll hN readings events).bursts
    bursts.length = (events.length + 1) / 2 ∧
    ∀ (k : ℕ) b, bursts[k]? = some b → events[2 * k]? = some (.burst b.burstLength) ∧
      b.pid = (k : ℤ) + 1 ∧ b.remainingTime = b.burstLength := by
  intro bursts
  obtain ⟨-, heven, hodd⟩ := randomEvents_get h
  obtain ⟨hlength, hget⟩ := lengths_get (fun k hk => (heven k hk).imp fun _ => And.left)
    fun k hk => (hodd k hk).imp fun _ => And.left
  obtain ⟨hjobs, hremaining⟩ := enqueueAll_bursts readings hN events
  constructor
  · have hcount := congrArg List.length hjobs
    rw [List.length_map, numbered, List.length_map, List.length_zipIdx, hlength] at hcount
    exact hcount
  · intro k b hb
    have hjob := congrArg (·[k]?) hjobs
    simp only [List.getElem?_map, numbered_get, hget] at hjob
    rw [show (p.enqueueAll hN readings events).bursts[k]? = some b from hb, Option.map_some] at hjob
    obtain ⟨length, hlen, heq⟩ := Option.map_eq_some_iff.mp hjob.symm
    obtain ⟨e, he, hlen⟩ := Option.bind_eq_some_iff.mp hlen
    obtain ⟨hpid, rfl⟩ : b.pid = ((1 + k : ℕ) : ℤ) ∧ b.burstLength = length := by
      simpa [BurstItem.job, eq_comm] using heq
    refine ⟨by rw [he, burst_of_length hlen], ?_, hremaining b (List.mem_of_getElem? hb)⟩
    rw [hpid]
    omega

/-- `sched_random` does what is documented exactly when `PC` is at most `2 ^ 30` and the value
drawn for each burst, which lies between `T1` and `T2`, also lies between `L1` and `L2`, while
that drawn for each pause makes `usleep` sleep for `T1` to `T2` milliseconds. -/
theorem random_as_documented_iff (hN : 0 < p.N) (readings : ℤ → Reading p) (hPC : 1 ≤ input.PC)
    {supply : Supply p} (h : p.schedRandom hN readings input = some supply) :
    ∃ events, randomEvents input = some events ∧ (AsDocumented input events supply.bursts ↔
      input.PC ≤ 2 ^ 30 ∧
      (∀ k : ℕ, k < input.PC → FirstWithin input.T1 input.T2 (input.draws (2 * k)) fun x =>
        input.L1 ≤ x ∧ x ≤ input.L2) ∧
      ∀ k : ℕ, (k : ℤ) + 1 < input.PC →
        FirstWithin input.L1 input.L2 (input.draws (2 * k + 1)) fun x =>
          1000 * input.T1 ≤ usleepArg x ∧ usleepArg x ≤ 1000 * input.T2) := by
  obtain ⟨events, hevents, rfl⟩ := Option.map_eq_some_iff.mp h
  refine ⟨events, hevents, ?_⟩
  obtain ⟨hlength, heven, hodd⟩ := randomEvents_get hevents
  obtain ⟨hcount, hbursts⟩ := random_bursts readings hN hevents
  constructor
  · intro hdoc
    have hrounds := hdoc.rounds
    have hfits : input.PC ≤ 2 ^ 30 := by
      have := isInt_toInt (2 * input.PC - 1)
      have hhi : toInt (2 * input.PC - 1) < 2 ^ 31 := this.2
      omega
    refine ⟨hfits, fun k hk => ?_, fun k hk => ?_⟩
    · obtain ⟨x, hx, hdraw⟩ := heven k (by omega)
      have hkb : k < (p.enqueueAll hN readings events).bursts.length := by
        have := hdoc.count
        omega
      obtain ⟨hburst, -, -, hlimits⟩ := hdoc.burst k _ (List.getElem?_eq_getElem hkb)
      rw [firstWithin_iff hdraw]
      rw [hx] at hburst
      obtain rfl : x = _ := by simpa using hburst
      exact hlimits
    · obtain ⟨x, hx, hdraw⟩ := hodd k (by omega)
      obtain ⟨time, htime, hlimits⟩ := hdoc.pause k hk
      rw [firstWithin_iff hdraw]
      rw [hx] at htime
      obtain rfl : x = time := by simpa using htime
      exact hlimits
  · rintro ⟨hfits, hburst, hpause⟩
    have hrounds : (events.length : ℤ) = 2 * input.PC - 1 := by
      have hint : IsInt (2 * input.PC - 1) := ⟨by omega, by omega⟩
      rw [hlength, hint.toInt_eq]
      omega
    refine ⟨hrounds, by omega, fun k b hb => ?_, fun k hk => ?_⟩
    · obtain ⟨hround, hpid, hremaining⟩ := hbursts k b hb
      have hkb := (List.getElem?_eq_some_iff.mp hb).1
      obtain ⟨x, hx, hdraw⟩ := heven k (by omega)
      rw [hround] at hx
      obtain rfl : b.burstLength = x := by simpa using hx
      exact ⟨hround, hpid, hremaining, (firstWithin_iff hdraw).mp (hburst k (by omega))⟩
    · obtain ⟨x, hx, hdraw⟩ := hodd k (by omega)
      exact ⟨x, hx, (firstWithin_iff hdraw).mp (hpause k hk)⟩

/-- One burst, with the limits that are the defaults of the option `-r`. -/
def oneDraw (x : ℤ) : Input where
  infile := []
  file := none
  T1 := 10
  T2 := 1000
  L1 := 10
  L2 := 500
  PC := 1
  draws _ := [x]

def still : ℤ → Reading (lone .random) := fun _ => ⟨0, ⟨0, fun _ => 0, fun _ => 0⟩, 0⟩

def shortSupply : Supply (lone .random) :=
  ((lone .random).schedRandom (by decide) still (oneDraw 300)).get (by decide +kernel)

def longSupply : Supply (lone .random) :=
  ((lone .random).schedRandom (by decide) still (oneDraw 800)).get (by decide +kernel)

theorem random_as_documented_iff_shortSupply :
    ∃ events, randomEvents (oneDraw 300) = some events ∧
      (AsDocumented (oneDraw 300) events shortSupply.bursts ↔
      (oneDraw 300).PC ≤ 2 ^ 30 ∧
      (∀ k : ℕ, k < (oneDraw 300).PC → FirstWithin (oneDraw 300).T1 (oneDraw 300).T2
        ((oneDraw 300).draws (2 * k)) fun x => (oneDraw 300).L1 ≤ x ∧ x ≤ (oneDraw 300).L2) ∧
      ∀ k : ℕ, (k : ℤ) + 1 < (oneDraw 300).PC →
        FirstWithin (oneDraw 300).L1 (oneDraw 300).L2 ((oneDraw 300).draws (2 * k + 1)) fun x =>
          1000 * (oneDraw 300).T1 ≤ usleepArg x ∧ usleepArg x ≤ 1000 * (oneDraw 300).T2) :=
  random_as_documented_iff (by decide) still (by decide) (Option.some_get _).symm

/-- The value 800 is accepted for a burst, although 500 is the limit of `-r`. -/
theorem random_not_as_documented_longSupply :
    (lone .random).schedRandom (by decide) still (oneDraw 800) = some longSupply ∧
      ∀ events, ¬ AsDocumented (oneDraw 800) events longSupply.bursts := by
  refine ⟨(Option.some_get _).symm, fun events hdoc => ?_⟩
  have hburst : longSupply.bursts[0]?.map BurstItem.burstLength = some 800 := by decide +kernel
  obtain ⟨b, hb, hlength⟩ := Option.map_eq_some_iff.mp hburst
  have hlimit := (hdoc.burst 0 b hb).2.2.2.2
  rw [hlength] at hlimit
  exact absurd hlimit (by decide)

end SchedProps

end Cs342.Scheduler
