import Cs342.Library.Delimited
import Cs342.ResourceManager.Avoidance

/-!
# What rm_print_state tells

The library prints its tables, and its caller has nothing else to go by. The text is made of
numbers with a blank behind each, so no two states of the tables look the same. In a session the
tables tell which threads are blocked as well: a request for nothing is never kept waiting, so
exactly the threads in `rm_request` have something in the table of the requests.
-/

namespace Cs342.ResourceManager

open Library

variable {N M : ℕ}

/-- `R%d ` for each resource type. -/
def resourceNames (M : ℕ) : CString :=
  (List.finRange M).flatMap fun i => ascii "R" ++ intText i.val ++ ascii " "

/-- `%d ` for each entry. -/
def entries (arr : Vec M) : CString :=
  (List.finRange M).flatMap fun i => intText (arr i) ++ ascii " "

def printMat (mat : Fin N → Vec M) : CString :=
  ascii "\t" ++ resourceNames M ++
    (List.finRange N).flatMap fun i =>
      ascii "\nT" ++ intText i.val ++ ascii ":\t" ++ entries (mat i)

def printArr (arr : Vec M) : CString :=
  ascii "\t" ++ resourceNames M ++ ascii "\n" ++ ascii "\t" ++ entries arr

namespace Manager

def rmPrintState (s : Manager N M) (hmsg : CString) : CString :=
  if s.tcount = 0 then ascii "No threads are active\n"
  else
    ascii "\n##########################\n" ++ hmsg ++ ascii "\n###########################\n" ++
      ascii "Exist:\n" ++ printArr s.ExistingRes ++
      ascii "\n\nAvailable:\n" ++ printArr s.available ++
      ascii "\n\nAllocation:\n" ++ printMat s.allocation ++
      ascii "\n\nRequest:\n" ++ printMat s.requests ++
      ascii "\n\nMaxDemand:\n" ++ printMat s.maxDemand ++
      ascii "\n\nNeed:\n" ++ printMat s.need ++ ascii "\n##########################\n"

end Manager

/-! ## The tables are told apart -/

theorem selfDelimiting_entries : SelfDelimiting (entries (M := M)) :=
  .pi fun _ => selfDelimiting_intText (by decide) _

theorem selfDelimiting_printArr : SelfDelimiting (printArr (M := M)) :=
  selfDelimiting_entries.const_append _

theorem selfDelimiting_printMat : SelfDelimiting (printMat (N := N) (M := M)) :=
  .const_append (.pi fun _ => selfDelimiting_entries.const_append _) _

namespace Manager

/-- All that is printed of a state. -/
structure SameTables (s t : Manager N M) : Prop where
  exist : s.ExistingRes = t.ExistingRes
  available : s.available = t.available
  allocation : s.allocation = t.allocation
  requests : s.requests = t.requests
  maxDemand : s.maxDemand = t.maxDemand
  need : s.need = t.need

variable {s t : Manager N M}

theorem rmPrintState_eq_iff (hs : s.tcount ≠ 0) (ht : t.tcount ≠ 0) (hmsg : CString) :
    s.rmPrintState hmsg = t.rmPrintState hmsg ↔ s.SameTables t := by
  simp only [rmPrintState, if_neg hs, if_neg ht, List.append_assoc]
  constructor
  · intro heq
    have heq := List.append_cancel_left (List.append_cancel_left (List.append_cancel_left
      (List.append_cancel_left heq)))
    obtain ⟨hexist, heq⟩ := selfDelimiting_printArr heq
    obtain ⟨havailable, heq⟩ := selfDelimiting_printArr (List.append_cancel_left heq)
    obtain ⟨hallocation, heq⟩ := selfDelimiting_printMat (List.append_cancel_left heq)
    obtain ⟨hrequests, heq⟩ := selfDelimiting_printMat (List.append_cancel_left heq)
    obtain ⟨hmaxDemand, heq⟩ := selfDelimiting_printMat (List.append_cancel_left heq)
    obtain ⟨hneed, -⟩ := selfDelimiting_printMat (List.append_cancel_left heq)
    exact ⟨hexist, havailable, hallocation, hrequests, hmaxDemand, hneed⟩
  · rintro ⟨hexist, havailable, hallocation, hrequests, hmaxDemand, hneed⟩
    rw [hexist, havailable, hallocation, hrequests, hmaxDemand, hneed]

end Manager

namespace Session

open Sys Manager

variable {c : Session} {s s' : Sys c.N c.M}

/-- A thread does not wait for nothing. -/
theorem pending_ne_zero (ha : c.avoid = 0 ∨ c.avoid = 1) (hs : c.system.Reachable s) {t : Fin c.N}
    (hb : (s.threads t).isBlocked = true) : (s.threads t).pending ≠ 0 := by
  refine hs.invariant (I := fun s => (s.threads t).isBlocked = true → (s.threads t).pending ≠ 0)
    ?_ ?_ hb
  · rintro s ⟨g, rm, starts, -, -, -, rfl⟩ hb
    simp [Local.isBlocked] at hb
  · rintro s s' hr hne ⟨a, hact⟩ hb
    have h := inv ha hr
    cases h.effect hact with
    | reject => exact hne hb
    | claim => exact hne hb
    | @wait u v _ nonneg _ no =>
      by_cases hut : t = u
      · subst hut
        have hgrantable : s.rm.Grantable t 0 := by
          refine ⟨fun _ => h.available_nonneg, fun ho => ⟨?_, h.available_nonneg⟩⟩
          have hsafe := safe (h.avoid.symm.trans ho) hr
          simpa [Pool.grant] using hsafe
        simp only [Function.update_self, Local.pending]
        rintro rfl
        exact no hgrantable
      · simpa [hut] using hne (by simpa [hut] using hb)
    | @grant u v =>
      by_cases hut : t = u
      · subst hut
        simp [Local.isBlocked] at hb
      · simpa [hut] using hne (by simpa [hut] using hb)
    | release => simpa using hne (by simpa using hb)

/-- The threads with a request in the table are those that are blocked. -/
theorem requests_ne_zero_iff (ha : c.avoid = 0 ∨ c.avoid = 1) (hs : c.system.Reachable s)
    (t : Fin c.N) : s.rm.requests t ≠ 0 ↔ (s.threads t).isBlocked = true := by
  rw [(inv ha hs).requests t]
  constructor
  · intro hne
    cases ht : s.threads t with
    | running => simp [ht, Local.pending] at hne
    | blocked => rfl
  · exact pending_ne_zero ha hs

/-- Two moments of a session look the same only if nothing is different in the tables, and then
the same threads are blocked and wait for the same. -/
theorem print_tells_state (ha : c.avoid = 0 ∨ c.avoid = 1) (hN : 0 < c.N)
    (hs : c.system.Reachable s) (hs' : c.system.Reachable s') (hmsg : CString) :
    s.rm.rmPrintState hmsg = s'.rm.rmPrintState hmsg ↔
      s.rm.SameTables s'.rm ∧ ∀ t, (s.threads t).isBlocked = (s'.threads t).isBlocked ∧
        (s.threads t).pending = (s'.threads t).pending := by
  have h := inv ha hs
  have h' := inv ha hs'
  have hcount : (c.N : ℤ) ≠ 0 := by omega
  rw [rmPrintState_eq_iff (h.tcount ▸ hcount) (h'.tcount ▸ hcount)]
  refine ⟨fun hsame => ⟨hsame, fun t => ⟨?_, ?_⟩⟩, And.left⟩
  · rw [Bool.eq_iff_iff, ← requests_ne_zero_iff ha hs, ← requests_ne_zero_iff ha hs',
      hsame.requests]
  · rw [← h.requests, ← h'.requests, hsame.requests]

/-- The last request has not been made yet. -/
def trioBefore : Sys trio.N trio.M := (trio.run (trioCalls.take 9)).get (by decide +kernel)

theorem print_tells_state_trioBefore :
    trioBefore.rm.rmPrintState (ascii "The current state") =
        trioEnd.rm.rmPrintState (ascii "The current state") ↔
      trioBefore.rm.SameTables trioEnd.rm ∧ ∀ t,
        (trioBefore.threads t).isBlocked = (trioEnd.threads t).isBlocked ∧
          (trioBefore.threads t).pending = (trioEnd.threads t).pending :=
  print_tells_state (.inr rfl) (by decide)
    (trio.reachable_run (by decide) (by decide) (Option.some_get _).symm) reachable_trioEnd _

end Session

end Cs342.ResourceManager
