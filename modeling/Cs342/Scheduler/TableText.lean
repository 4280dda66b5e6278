import Cs342.Library.Delimited
import Cs342.Library.Lines
import Cs342.Scheduler.Options
import Cs342.Scheduler.Table

/-!
# What the table looks like

The numbers of a line stand in columns, but a column grows with its number. Nothing is lost by
that: there are blanks between two numbers, and the words behind the last line do not begin like
a number. So the output tells the table, and with it the bursts of the input.
-/

namespace Cs342.Scheduler

open Library Options

/-- `%*s`. -/
def rightText (width : ℕ) (s : String) : CString := (ascii s).leftpad width (byte 32)

def gap : CString := ascii "  "

def tableHeader : CString :=
  rightText 3 "pid" ++ gap ++ rightText 3 "cpu" ++ gap ++ rightText 8 "burstlen" ++ gap ++
    rightText 3 "arv" ++ gap ++ rightText 7 "finish" ++ gap ++ rightText 11 "waitingtime" ++ gap ++
    rightText 10 "turnaround"

def ReportLine.text (l : ReportLine) : CString :=
  paddedText 3 l.pid ++ gap ++ paddedText 3 l.cpu ++ gap ++ paddedText 8 l.burstlen ++ gap ++
    paddedText 3 l.arv ++ gap ++ paddedText 7 l.finish ++ gap ++ paddedText 11 l.waitingtime ++
    gap ++ paddedText 10 l.turnaround

/-- What is printed from the header on. -/
def Report.body (t : Report) : CString :=
  tableHeader ++ t.lines.flatMap (fun l => newline :: l.text) ++
    ascii "\naverage turnaround time: " ++ intText t.average ++ ascii " ms"

/-- In the mode `OFILE` it is the contents of the file, else it goes to the console. -/
def Report.text (outmode : ℤ) (t : Report) : CString :=
  if outmode = OFILE then t.body else ascii "\n\n" ++ t.body ++ ascii "\n"

/-! ## Reading it -/

/-- A number and the gap behind it. -/
theorem column_inj {width : ℕ} {x y : ℤ} {s t : CString}
    (h : paddedText width x ++ (gap ++ s) = paddedText width y ++ (gap ++ t)) : x = y ∧ s = t := by
  have hspace : isDigitOf 10 (byte 32) = false := by decide
  refine selfDelimiting_paddedText width hspace [byte 32] ?_
  rw [List.append_assoc, List.append_assoc]
  exact h

/-- The end of a line is the end of its last number. -/
theorem ReportLine.selfDelimiting_text :
    SelfDelimiting fun l : ReportLine => l.text ++ [newline] := by
  have hnewline : isDigitOf 10 newline = false := by decide
  intro l m s t heq
  simp only [ReportLine.text, List.append_assoc] at heq
  obtain ⟨hpid, heq⟩ := column_inj heq
  obtain ⟨hcpu, heq⟩ := column_inj heq
  obtain ⟨hburstlen, heq⟩ := column_inj heq
  obtain ⟨harv, heq⟩ := column_inj heq
  obtain ⟨hfinish, heq⟩ := column_inj heq
  obtain ⟨hwaitingtime, heq⟩ := column_inj heq
  rw [← List.append_assoc, ← List.append_assoc] at heq
  obtain ⟨hturnaround, hst⟩ := selfDelimiting_paddedText 10 hnewline [] heq
  cases l
  cases m
  simp_all

/-- A separator in front of each text is one behind each text, but for the first. -/
theorem flatMap_cons_append {α β : Type*} (f : α → List β) (c : β) (l : List α) (t : List β) :
    l.flatMap (fun x => c :: f x) ++ c :: t = c :: (l.flatMap (fun x => f x ++ [c]) ++ t) := by
  induction l with
  | nil => rfl
  | cons x l ih =>
    rw [List.flatMap_cons, List.append_assoc, ih]
    simp

/-- The words behind the last line, up to the number. -/
def averageText : CString := ascii "average turnaround time: "

/-- The words do not begin like a line does. -/
theorem selfDelimiting_lines :
    SelfDelimiting fun lines : List ReportLine =>
      lines.flatMap (fun l => l.text ++ [newline]) ++ averageText := by
  refine ReportLine.selfDelimiting_text.flatMap fun l s t heq => ?_
  simp only [ReportLine.text, List.append_assoc] at heq
  have hfirst := head_paddedText 3 l.pid (byte 97) (by rw [heq]; rfl)
  revert hfirst
  decide

namespace Report

variable {t : Report}

theorem body_eq (t : Report) :
    t.body = (tableHeader ++ [newline]) ++ ((t.lines.flatMap (fun l => l.text ++ [newline]) ++
      averageText) ++ (intText t.average ++ ascii " ms")) := by
  have haverage : ascii "\naverage turnaround time: " = newline :: averageText := rfl
  rw [body, haverage, List.append_assoc tableHeader, flatMap_cons_append]
  simp

theorem body_injective : Function.Injective body := by
  intro t u heq
  rw [body_eq, body_eq] at heq
  obtain ⟨hlines, hrest⟩ := selfDelimiting_lines (List.append_cancel_left heq)
  have hspace : isDigitOf 10 (byte 32) = false := by decide
  have haverage := (selfDelimiting_intText hspace (ascii "ms")).injective hrest
  cases t
  cases u
  simp_all

theorem text_injective (outmode : ℤ) : Function.Injective (text outmode) := by
  intro t u heq
  unfold text at heq
  split_ifs at heq
  · exact body_injective heq
  · exact body_injective (List.append_cancel_left (List.append_cancel_right heq))

end Report

theorem numbered_lengths (pid : ℕ) (ls : List ℤ) : (numbered pid ls).map Job.burstLength = ls := by
  rw [numbered, List.map_map]
  exact List.zipIdx_map_fst pid ls

namespace Workload

variable {p p' : SchedProps} {hN : 0 < p.N} {hN' : 0 < p'.N} {hQ : p.alg = .rr → 1 ≤ p.Q}
  {hQ' : p'.alg = .rr → 1 ≤ p'.Q} {input input' : Input} {events events' : List Event}
  {r : ℕ → State p} {r' : ℕ → State p'}

/-- The table of a run that is over has the bursts of the input on it. -/
theorem report_lengths (hrun : (ofEvents p hN hQ events).system.Run r)
    (fair : (ofEvents p hN hQ events).system.Fair r) :
    ∃ n, ∀ m, n ≤ m → ∀ t, (r m).finishedQueue.report = some t →
      t.lines.map ReportLine.burstlen = lengths events := by
  obtain ⟨n, hjobs⟩ := report_jobs hrun fair
  refine ⟨n, fun m hm t ht => ?_⟩
  have hlengths := congrArg (List.map Job.burstLength) (hjobs m hm t ht)
  rw [List.map_map] at hlengths
  exact hlengths.trans (numbered_lengths 1 _)

/-- Whatever the machines, the algorithms and the clocks of two runs are: if they come to write the
same, then they have made the same table, and their inputs have asked for the same bursts. -/
theorem output_tells_input (hrun : (ofEvents p hN hQ events).system.Run r)
    (fair : (ofEvents p hN hQ events).system.Fair r)
    (hrun' : (ofEvents p' hN' hQ' events').system.Run r')
    (fair' : (ofEvents p' hN' hQ' events').system.Fair r') (outmode : ℤ) :
    ∃ n, ∀ m m', n ≤ m → n ≤ m' → ∀ t t', (r m).finishedQueue.report = some t →
      (r' m').finishedQueue.report = some t' → t.text outmode = t'.text outmode →
        t = t' ∧ lengths events = lengths events' := by
  obtain ⟨n, hn⟩ := report_lengths hrun fair
  obtain ⟨n', hn'⟩ := report_lengths hrun' fair'
  refine ⟨max n n', fun m m' hm hm' t t' ht ht' htext => ?_⟩
  obtain rfl := Report.text_injective outmode htext
  exact ⟨rfl, (hn m (le_trans (le_max_left _ _) hm) t ht).symm.trans
    (hn' m' (le_trans (le_max_right _ _) hm') t ht')⟩

/-- `PL 3 PL 1` on the machine with the two CPUs. -/
def pairOfEvents : Workload :=
  ofEvents pair.toSchedProps pair.N_pos pair.Q_pos [.burst 3, .burst 1]

theorem run_pairOfEvents :
    pairOfEvents.system.Run (System.trace State.act pair.start pairActions) :=
  System.run_trace pair.init_start pairActions

theorem fair_pairOfEvents :
    pairOfEvents.system.Fair (System.trace State.act pair.start pairActions) :=
  System.fair_trace (quiet_of_all_left (w := pair) (by decide +kernel) (by decide +kernel)
    (by decide +kernel))

theorem output_tells_input_pair :
    ∃ n, ∀ m m', n ≤ m → n ≤ m' → ∀ t t',
      (System.trace State.act pair.start pairActions m).finishedQueue.report = some t →
      (System.trace State.act pair.start pairActions m').finishedQueue.report = some t' →
        t.text OFILE = t'.text OFILE →
          t = t' ∧ lengths [.burst 3, .burst 1] = lengths [.burst 3, .burst 1] :=
  output_tells_input run_pairOfEvents fair_pairOfEvents run_pairOfEvents fair_pairOfEvents OFILE

end Workload

end Cs342.Scheduler
