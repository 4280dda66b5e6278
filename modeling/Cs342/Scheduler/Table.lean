import Cs342.Scheduler.Completion
import Cs342.Scheduler.Report
import Cs342.Scheduler.Sources

/-!
# From the input to the table

What `schedule` prints at its end depends on the clock and on the order in which the threads run,
but not its first and third column: in every fair run the table has a line for each burst of the
input, in the order of the input, with the length that the input gives. Where there is no burst
there is no table either, as the average divides by their number.
-/

namespace Cs342.Scheduler

open Library

/-- The events of either source, where it comes to enqueue the markers. -/
def SchedProps.events (p : SchedProps) (input : Input) : Option (List Event) :=
  match p.source with
  | .file => if input.infile = [] then none else input.file.bind parse
  | .random => randomEvents input

/-- What is enqueued of the events. -/
theorem SchedProps.produced_eq {p : SchedProps} (hN : 0 < p.N) (readings : ℤ → Reading p)
    {input : Input} {events : List Event} (h : p.events input = some events) :
    p.produced hN readings input = some (p.enqueueAll hN readings events) := by
  cases hsource : p.source with
  | file =>
    simp only [SchedProps.events, hsource, Option.ite_none_left_eq_some,
      Option.bind_eq_some_iff] at h
    obtain ⟨hinfile, file, hfile, hparse⟩ := h
    simp only [produced, hsource, schedFile, if_neg hinfile, hfile, parseAndEnqueue, hparse,
      Option.map_some]
  | random =>
    simp only [SchedProps.events, hsource] at h
    simp only [produced, hsource, schedRandom, h, Option.map_some]

section Numbered

variable {pid : ℕ} {ls : List ℤ}

theorem numbered_pids : (numbered pid ls).map Job.pid = (List.range' pid ls.length).map (↑) := by
  rw [numbered, List.map_map, ← List.zipIdx_map_snd, List.map_map]
  rfl

theorem numbered_ascending : (numbered pid ls).Pairwise fun i j => i.pid < j.pid := by
  have hrange : (List.range' pid ls.length).Pairwise (· < ·) := List.pairwise_lt_range'
  rw [← List.pairwise_map (f := Job.pid) (R := (· < ·)), numbered_pids, List.pairwise_map]
  exact hrange.imp Int.ofNat_lt.mpr

theorem le_pid_of_mem_numbered {j : Job} (h : j ∈ numbered pid ls) :
    (pid : ℤ) ≤ j.pid ∧ j.pid < pid + ls.length := by
  have hmem : j.pid ∈ (numbered pid ls).map Job.pid := List.mem_map_of_mem h
  rw [numbered_pids] at hmem
  obtain ⟨k, hk, hpid⟩ := List.mem_map.mp hmem
  rw [List.mem_range'_1] at hk
  omega

end Numbered

namespace Workload

/-- What the input of a simulation asks for. -/
def ofEvents (p : SchedProps) (hN : 0 < p.N) (hQ : p.alg = .rr → 1 ≤ p.Q) (events : List Event) :
    Workload where
  toSchedProps := p
  jobs := numbered 1 (lengths events)
  N_pos := hN
  Q_pos := hQ
  pid_pos _ hj := (le_pid_of_mem_numbered hj).1
  pid_nodup := List.pairwise_map.mpr (numbered_ascending.imp fun hlt => ne_of_lt hlt)

end Workload

/-- The burst that a line of the table is about. -/
def ReportLine.job (l : ReportLine) : Job := ⟨l.pid, l.burstlen⟩

/-- The lines of the table are those of the jobs, in the order of their pids. -/
theorem Queue.Holds.table {q : Queue} {q0 : ℤ} {bursts : List BurstItem} {jobs : List Job}
    (h : q.Holds q0 bursts none) (hperm : (bursts.map BurstItem.job).Perm jobs)
    (hjobs : jobs.Pairwise fun i j => i.pid < j.pid) :
    (jobs = [] → q.report = none) ∧
      (jobs ≠ [] → ∃ t, q.report = some t ∧ t.lines.map ReportLine.job = jobs) := by
  rw [h.report]
  constructor
  · rintro rfl
    have hnone : bursts = [] := by simpa using hperm
    rw [if_pos hnone]
  · intro hne
    have hsome : bursts ≠ [] := by
      rintro rfl
      exact hne (by simpa using hperm)
    have hpids : (bursts.map BurstItem.pid).Nodup := by
      have hnodup : (jobs.map Job.pid).Nodup := List.pairwise_map.mpr (hjobs.imp ne_of_lt)
      have hmap := (hperm.map Job.pid).nodup_iff.mpr hnodup
      rwa [List.map_map] at hmap
    refine ⟨_, if_neg hsome, ?_⟩
    rw [List.map_map]
    refine List.Perm.eq_of_pairwise ?_ ?_ hjobs ?_
    · exact fun a b _ _ hab hba => absurd hab (lt_asymm hba)
    · exact List.pairwise_map.mpr (byPid_ascending hpids)
    · exact (byPid_perm.map BurstItem.job).trans hperm

namespace Workload

variable {p : SchedProps} {hN : 0 < p.N} {hQ : p.alg = .rr → 1 ≤ p.Q} {input : Input}
  {events : List Event} {r : ℕ → State p}

/-- The table of a fair run that is over. -/
theorem report_jobs (hrun : (ofEvents p hN hQ events).system.Run r)
    (fair : (ofEvents p hN hQ events).system.Fair r) :
    ∃ n, ∀ m, n ≤ m → ∀ t, (r m).finishedQueue.report = some t →
      t.lines.map ReportLine.job = numbered 1 (lengths events) := by
  obtain ⟨n, hover⟩ := eventually_over hrun fair
  refine ⟨n, fun m hm t ht => ?_⟩
  obtain ⟨⟨q0, hholds⟩, -, -⟩ := holds_finishedQueue (hrun.reachable m)
  obtain ⟨hnone, hsome⟩ := hholds.table (hover m hm).finished numbered_ascending
  by_cases hempty : numbered 1 (lengths events) = []
  · rw [hnone hempty] at ht
    cases ht
  · obtain ⟨u, hu, hlines⟩ := hsome hempty
    obtain rfl := Option.some.inj (ht.symm.trans hu)
    exact hlines

/-- In every fair run the table lists the bursts that the source creates, in the order in which it
creates them and with their lengths. If there are none, there is no table. -/
theorem table_lists (h : p.events input = some events)
    (hrun : (ofEvents p hN hQ events).system.Run r)
    (fair : (ofEvents p hN hQ events).system.Fair r) (readings : ℤ → Reading p) :
    ∃ supply, p.produced hN readings input = some supply ∧
      ∃ n, ∀ m, n ≤ m →
        (supply.bursts = [] → (r m).finishedQueue.report = none) ∧
        (supply.bursts ≠ [] → ∃ t, (r m).finishedQueue.report = some t ∧
          t.lines.map ReportLine.job = supply.bursts.map BurstItem.job) := by
  have hjobs := (p.enqueueAll_bursts readings hN events).1
  have hnone : (p.enqueueAll hN readings events).bursts = [] ↔
      numbered 1 (lengths events) = [] := by
    rw [← hjobs, List.map_eq_nil_iff]
  refine ⟨_, p.produced_eq hN readings h, ?_⟩
  simp only [ne_eq, hnone, hjobs]
  obtain ⟨n, hover⟩ := eventually_over hrun fair
  refine ⟨n, fun m hm => ?_⟩
  obtain ⟨⟨q0, hholds⟩, -, -⟩ := holds_finishedQueue (hrun.reachable m)
  exact hholds.table (hover m hm).finished numbered_ascending

/-- `PL 3 PL 1`, the bursts of the two CPUs that share a queue. -/
def pairFile : List Byte := [80, 76, 32, 51, 32, 80, 76, 32, 49].map byte

theorem events_pairFile :
    pair.toSchedProps.events (SchedProps.fileInput (some pairFile)) =
      some [.burst 3, .burst 1] := by
  decide +kernel

def pairReadings : ℤ → Reading pair.toSchedProps := fun _ => ⟨0, ⟨0, fun _ => 0, fun _ => 0⟩, 0⟩

theorem table_lists_pair :
    ∃ supply, pair.toSchedProps.produced pair.N_pos pairReadings
        (SchedProps.fileInput (some pairFile)) = some supply ∧
      ∃ n, ∀ m, n ≤ m →
        (supply.bursts = [] →
          (System.trace State.act pair.start pairActions m).finishedQueue.report = none) ∧
        (supply.bursts ≠ [] →
          ∃ t, (System.trace State.act pair.start pairActions m).finishedQueue.report = some t ∧
            t.lines.map ReportLine.job = supply.bursts.map BurstItem.job) :=
  table_lists events_pairFile (System.run_trace pair.init_start pairActions)
    (System.fair_trace (quiet_of_all_left (w := pair) (by decide +kernel) (by decide +kernel)
      (by decide +kernel))) pairReadings

end Workload

end Cs342.Scheduler
