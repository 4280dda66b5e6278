import Cs342.ResourceManager.Lifetime
import Cs342.ResourceManager.Safety

/-!
# Which row a thread acts on

`get_tid` finds the first slot of `tids` with the caller's handle. A slot is written
when a thread registers and is never cleared, so a handle that is used again may
still stand in a lower slot: the thread is found in its own slot exactly when it
is not. A call then writes to the row it was found in and to no other.
-/

namespace Cs342.ResourceManager

open Library

/-! ## A call writes to one row -/

/-- What a thread does with the library: a call, a further round of the waiting loops of
`rm_request`, or the safety check inside of it. -/
inductive Op (M : ℕ) where
  | claim (v : Vec M)
  | request (v : Vec M)
  | retry (v : Vec M)
  | stateSafe (v : Vec M)
  | release (v : Vec M)

namespace Manager

variable {N M : ℕ}

/-- The globals after it, for a caller with this row. -/
def after (s : Manager N M) (tid : Fin N) : Op M → Manager N M
  | .claim v => (s.rmClaim tid v).2
  | .request v => (s.rmRequest tid v).2
  | .retry v => (s.tryGrant tid v).2
  | .stateSafe v => (s.isStateSafe tid v).2
  | .release v => (s.rmRelease tid v).2.2

/-- The tables agree on all rows but one. -/
structure SameElsewhere (tid : Fin N) (s s' : Manager N M) : Prop where
  maxDemand : ∀ i ≠ tid, s'.maxDemand i = s.maxDemand i
  allocation : ∀ i ≠ tid, s'.allocation i = s.allocation i
  need : ∀ i ≠ tid, s'.need i = s.need i
  requests : ∀ i ≠ tid, s'.requests i = s.requests i

variable {s s' s'' : Manager N M} {tid : Fin N}

theorem SameElsewhere.refl (s : Manager N M) : SameElsewhere tid s s :=
  ⟨fun _ _ => rfl, fun _ _ => rfl, fun _ _ => rfl, fun _ _ => rfl⟩

theorem SameElsewhere.trans (h : SameElsewhere tid s s') (h' : SameElsewhere tid s' s'') :
    SameElsewhere tid s s'' where
  maxDemand i hi := (h'.maxDemand i hi).trans (h.maxDemand i hi)
  allocation i hi := (h'.allocation i hi).trans (h.allocation i hi)
  need i hi := (h'.need i hi).trans (h.need i hi)
  requests i hi := (h'.requests i hi).trans (h.requests i hi)

theorem sameElsewhere_tryGrant (s : Manager N M) (tid : Fin N) (v : Vec M) :
    SameElsewhere tid s (s.tryGrant tid v).2 := by
  have hs := s.mustWait_snd tid v
  unfold tryGrant
  split
  · next heq =>
    rw [heq] at hs
    exact hs ▸ .refl _
  · next heq =>
    rw [heq] at hs
    subst hs
    constructor <;> intro i hi <;> simp [allocate, hi]

/-- Whatever a thread does, the rows of the others stay as they are. -/
theorem sameElsewhere_after (s : Manager N M) (tid : Fin N) (op : Op M) :
    SameElsewhere tid s (s.after tid op) := by
  cases op with
  | claim v =>
    rw [after, rmClaim]
    split_ifs
    · exact .refl _
    · constructor <;> intro i hi <;> simp [hi]
  | request v =>
    rw [after, rmRequest]
    split_ifs
    · exact .refl _
    · exact .refl _
    · refine SameElsewhere.trans ?_ (sameElsewhere_tryGrant _ tid v)
      constructor <;> intro i hi <;> simp [hi]
  | retry v => exact sameElsewhere_tryGrant s tid v
  | stateSafe v =>
    rw [after, isStateSafe_snd]
    exact .refl _
  | release v =>
    rw [after, rmRelease]
    split_ifs
    · exact .refl _
    · constructor <;> intro i hi <;> simp [hi]

end Manager

/-! ## Histories of registrations -/

/-- The globals, and for each tid the handle of the live thread that has registered as it. -/
structure Roster where
  registry : Registry
  live : Fin MAXP → Option Handle

inductive Registering where
  | started (self : Handle) (tid : Fin MAXP)
  | ended (tid : Fin MAXP)

namespace Roster

/-- Before any thread has registered. -/
def start : Roster := ⟨Lifetime.fresh, fun _ => none⟩

/-- Live threads have distinct tids and distinct handles other than 0. -/
def act (s : Roster) : Registering → Option Roster
  | .started self tid =>
    if self ≠ 0 ∧ s.live tid = none ∧ ∀ i, s.live i ≠ some self then
      some ⟨rmThreadStarted s.registry self tid, Function.update s.live tid (some self)⟩
    else none
  | .ended tid =>
    if s.live tid ≠ none then
      some ⟨(rmThreadEnded s.registry).2, Function.update s.live tid none⟩
    else none

/-- Every live thread is found in its own slot, and what it does changes its own row only. -/
def OwnRow (s : Roster) : Prop :=
  ∀ t h, s.live t = some h → s.registry.getTid h = some t ∧
    ∀ (N M : ℕ) (rm : Manager N M), rm.toRegistry = s.registry →
      ∀ tid, rm.row h = some tid → tid.val = t.val ∧
        ∀ op, Manager.SameElsewhere tid rm (rm.after tid op)

/-- No slot below the new thread's own still holds its handle. -/
def NotStale (s : Roster) : Registering → Prop
  | .started self tid => ∀ i < tid, s.registry.tids i ≠ self
  | .ended _ => True

variable {s s' : Roster} {t u : Fin MAXP} {h : Handle}

theorem getTid_eq_some {g : Registry} :
    g.getTid h = some t ↔ g.tids t = h ∧ ∀ i < t, g.tids i ≠ h := by
  rw [Registry.getTid, List.find?_eq_some_iff_getElem]
  constructor
  · rintro ⟨ht, i, hi, rfl, hbefore⟩
    refine ⟨by simpa using ht, fun j hj => ?_⟩
    simp only [List.getElem_finRange, Fin.lt_def, Fin.val_cast] at hj
    simpa using hbefore j hj
  · rintro ⟨ht, hbefore⟩
    refine ⟨by simpa using ht, t.val, by simp, by simp, fun j hj => ?_⟩
    simpa using hbefore ⟨j, hj.trans t.isLt⟩ hj

theorem act_started (hact : s.act (.started h t) = some s') :
    (h ≠ 0 ∧ s.live t = none ∧ ∀ i, s.live i ≠ some h) ∧
      s' = ⟨rmThreadStarted s.registry h t, Function.update s.live t (some h)⟩ := by
  by_cases hg : h ≠ 0 ∧ s.live t = none ∧ ∀ i, s.live i ≠ some h
  · exact ⟨hg, by simpa [act, hg] using hact.symm⟩
  · rw [act, if_neg hg] at hact
    simp at hact

theorem act_ended (hact : s.act (.ended t) = some s') :
    s' = ⟨(rmThreadEnded s.registry).2, Function.update s.live t none⟩ := by
  by_cases hg : s.live t ≠ none
  · simpa [act, hg] using hact.symm
  · rw [act, if_neg hg] at hact
    simp at hact

/-- The slot of a live thread holds its handle. -/
def Listed (s : Roster) : Prop := ∀ t h, s.live t = some h → s.registry.tids t = h

/-- No slot below that of a live thread holds its handle. -/
def First (s : Roster) : Prop := ∀ t h, s.live t = some h → ∀ i < t, s.registry.tids i ≠ h

theorem rmThreadStarted_tids (g : Registry) (self : Handle) (tid i : Fin MAXP) :
    (rmThreadStarted g self tid).tids i = if i = tid then self else g.tids i := by
  simp [rmThreadStarted, Fin.ext_iff]

theorem Listed.step (hs : s.Listed) {e : Registering} (hact : s.act e = some s') :
    s'.Listed := by
  cases e with
  | started self tid =>
    obtain ⟨-, rfl⟩ := act_started hact
    intro t h ht
    rw [rmThreadStarted_tids]
    rcases eq_or_ne t tid with rfl | hne
    · simpa using ht
    · rw [if_neg hne]
      exact hs t h (by simpa [hne] using ht)
  | ended tid =>
    obtain rfl := act_ended hact
    intro t h ht
    rcases eq_or_ne t tid with rfl | hne
    · simp at ht
    · exact hs t h (by simpa [hne] using ht)

theorem First.step (hs : s.First) {e : Registering} (hfree : s.NotStale e)
    (hact : s.act e = some s') : s'.First := by
  cases e with
  | started self tid =>
    obtain ⟨⟨-, -, hself⟩, rfl⟩ := act_started hact
    intro t h ht i hi
    rw [rmThreadStarted_tids]
    rcases eq_or_ne t tid with rfl | hne
    · rw [if_neg hi.ne]
      obtain rfl : self = h := by simpa using ht
      exact hfree i hi
    · have ht : s.live t = some h := by simpa [hne] using ht
      split_ifs
      · -- the new thread has another handle than the live ones
        rintro rfl
        exact hself t ht
      · exact hs t h ht i hi
  | ended tid =>
    obtain rfl := act_ended hact
    intro t h ht i hi
    rcases eq_or_ne t tid with rfl | hne
    · simp at ht
    · exact hs t h (by simpa [hne] using ht) i hi

theorem ownRow_of_first (hlisted : s.Listed) (hfirst : s.First) : s.OwnRow := by
  intro t h ht
  have hget := getTid_eq_some.mpr ⟨hlisted t h ht, hfirst t h ht⟩
  refine ⟨hget, fun N M rm hrm tid hrow => ⟨?_, fun op => rm.sameElsewhere_after tid op⟩⟩
  rw [Manager.row, hrm, hget] at hrow
  by_cases hlt : t.val < N
  · simp only [hlt, dif_pos, Option.some.injEq] at hrow
    exact hrow ▸ rfl
  · simp [hlt] at hrow

/-- Every live thread acts on its own row in exactly the histories in which no thread
registers with a handle that a lower slot still holds. -/
theorem own_row (events : List Registering) :
    System.Always act OwnRow start events ↔ System.Meets act NotStale start events := by
  constructor
  · intro halways
    refine halways.meets (I := fun _ => True) trivial (fun _ _ _ _ _ => trivial) ?_
    intro s e s' _ hact hown
    cases e with
    | ended => trivial
    | started self tid =>
      obtain ⟨-, rfl⟩ := act_started hact
      intro i hi
      have hget := (hown tid self (by simp)).1
      have hne := (getTid_eq_some.mp hget).2 i hi
      rwa [rmThreadStarted_tids, if_neg hi.ne] at hne
  · intro hmeets
    refine hmeets.always (I := fun s => s.Listed ∧ s.First) ⟨?_, ?_⟩ ?_ ?_
    · intro t h ht
      simp [start] at ht
    · intro t h ht
      simp [start] at ht
    · intro s e s' hs hfree hact
      exact ⟨hs.1.step hact, hs.2.step hfree hact⟩
    · intro s hs
      exact ownRow_of_first hs.1 hs.2

/-- A thread registers as tid 0 and ends, and the next one gets its handle and tid 1. -/
def reused : List Registering :=
  [.started 1 ⟨0, by decide⟩, .ended ⟨0, by decide⟩, .started 1 ⟨1, by decide⟩]

def reusedEnd : Roster := (System.perform act reused start).get (by decide +kernel)

/-- The second thread is found in the slot of the first. -/
theorem not_own_row_reused : ¬ System.Always act OwnRow start reused := by
  intro h
  have hend := h.of_perform (t := reusedEnd) (Option.some_get _).symm
  have hget := (hend ⟨1, by decide⟩ 1 (by decide +kernel)).1
  exact absurd hget (by decide +kernel)

end Roster

end Cs342.ResourceManager
