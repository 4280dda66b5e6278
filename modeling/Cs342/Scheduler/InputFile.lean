import Cs342.Scheduler.Sources
import Cs342.TopK.Output

/-!
# Writing an input file

The input file has a line for each burst and each pause, `PL` or `IAT` and a number. So bursts
and pauses of any length that an `int` can have, in any order, can be asked for, and nothing else
comes of their lines.
-/

namespace Cs342.Scheduler

open Library TopK

/-! ## The lines of a file -/

def Event.word : Event → CString
  | .burst _ => burstWord
  | .sleep _ => sleepWord

def Event.value : Event → ℤ
  | .burst length => length
  | .sleep time => time

/-- The event of the same kind with another number. -/
def Event.withValue (x : ℤ) : Event → Event
  | .burst _ => .burst x
  | .sleep _ => .sleep x

def Event.line (e : Event) : CString := e.word ++ byte 32 :: (intText e.value ++ [byte 10])

theorem Event.word_token (e : Event) : e.word ≠ [] ∧ ∀ c ∈ e.word, c ∉ exceptions ∧ c ≠ nul := by
  have hburst : burstWord ≠ [] ∧ ∀ c ∈ burstWord, c ∉ exceptions ∧ c ≠ nul := by decide +kernel
  have hsleep : sleepWord ≠ [] ∧ ∀ c ∈ sleepWord, c ∉ exceptions ∧ c ≠ nul := by decide +kernel
  cases e with
  | burst => exact hburst
  | sleep => exact hsleep

def inputText (events : List Event) : List Byte := events.flatMap Event.line

theorem fileTokens_word {w s : CString} {d : Byte} (hne : w ≠ [])
    (hw : ∀ c ∈ w, c ∉ exceptions ∧ c ≠ nul) (hd : d ∈ exceptions) :
    fileTokens (w ++ d :: s) = w :: fileTokens s := tokens_word hne hw hd

theorem fileTokens_inputText (events : List Event) :
    fileTokens (inputText events) = events.flatMap fun e => [e.word, intText e.value] := by
  induction events with
  | nil => rfl
  | cons e events ih =>
    obtain ⟨hne, hword⟩ := e.word_token
    have hnumber := plain_intText e.value
    have htext : inputText (e :: events) =
        e.word ++ byte 32 :: (intText e.value ++ byte 10 :: inputText events) := by
      simp [inputText, Event.line]
    rw [htext, fileTokens_word hne hword (by decide),
      fileTokens_word hnumber.ne_nil hnumber.token (by decide), ih]
    rfl

/-- A command and its argument. -/
theorem parseTokens_event (e : Event) (tkns : List CString) :
    parseTokens (e.word :: intText e.value :: tkns) =
      (parseTokens tkns).map (e.withValue (atoi (intText e.value)) :: ·) := by
  have hburst : strcmp burstWord burstWord = 0 := by decide
  have hsleep : strcmp sleepWord sleepWord = 0 ∧ strcmp sleepWord burstWord ≠ 0 := by decide
  cases e with
  | burst length => rw [Event.word, parseTokens, if_pos hburst]; rfl
  | sleep time => rw [Event.word, parseTokens, if_neg hsleep.2, if_pos hsleep.1]; rfl

theorem parseTokens_inputText {events : List Event} (h : ∀ e ∈ events, IsInt e.value) :
    parseTokens (events.flatMap fun e => [e.word, intText e.value]) = some events := by
  induction events with
  | nil => rfl
  | cons e events ih =>
    obtain ⟨he, hevents⟩ := List.forall_mem_cons.mp h
    have hsame : e.withValue e.value = e := by cases e <;> rfl
    rw [List.flatMap_cons, List.cons_append, List.cons_append, List.nil_append, parseTokens_event,
      ih hevents, atoi_intText he, hsame]
    rfl

/-- Any bursts and pauses can be written into a file, one line for each, and are read from it. The
producer enqueues one burst for each `PL`, numbered from 1 on, and then a marker for each queue. -/
theorem SchedProps.input_file (p : SchedProps) (hN : 0 < p.N) (readings : ℤ → Reading p)
    {events : List Event} (h : ∀ e ∈ events, IsInt e.value) :
    parse (inputText events) = some events ∧
      ∃ supply,
        p.parseAndEnqueue hN readings (some (inputText events)) = some (supply ++ p.markers) ∧
        (supply.map fun e => e.2.job) = numbered 1 (lengths events) := by
  have hparse : parse (inputText events) = some events := by
    rw [parse_eq, fileTokens_inputText, parseTokens_inputText h]
  refine ⟨hparse, p.enqueueEvents readings events 1 ⟨0, p.queuesSize_pos hN⟩, ?_,
    enqueueEvents_jobs events 1 _⟩
  rw [parseAndEnqueue, hparse]
  rfl

/-- A pause between two bursts, one of which the scheduler runs for no time at all. -/
def threeLines : List Event := [.burst 5, .sleep 20, .burst (-3)]

example : inputText threeLines = ascii "PL 5\nIAT 20\nPL -3\n" := by decide +kernel

theorem SchedProps.input_file_threeLines :
    parse (inputText threeLines) = some threeLines ∧
      ∃ supply, (lone .file).parseAndEnqueue (by decide) quiet (some (inputText threeLines)) =
          some (supply ++ (lone .file).markers) ∧
        (supply.map fun e => e.2.job) = numbered 1 (lengths threeLines) :=
  (lone .file).input_file (by decide) quiet (by decide)

end Cs342.Scheduler
