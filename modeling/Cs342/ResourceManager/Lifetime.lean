import Mathlib.Data.Finset.Card
import Mathlib.Data.Fintype.Basic
import Cs342.Library.System
import Cs342.ResourceManager.Manager

/-!
# When the tables are freed

`rm_init` allocates the tables for `N` threads, and the thread whose end brings the
counter of live threads to 0 frees them. Each thread starts once and ends once, at
any time, so the counter may be 0 while threads have yet to start: the tables are
freed once and at the very end exactly in the runs in which no thread ends alone
before the last one has started.
-/

namespace Cs342.ResourceManager

open Library

/-- A thread of the application. -/
inductive Phase where
  | unstarted
  | live
  | ended
  deriving DecidableEq, Repr

/-- The globals that count the threads, how often the tables have been freed, and the threads. -/
structure Lifetime (N : ℕ) where
  registry : Registry
  freed : ℕ
  phase : Fin N → Phase

/-- A call of `rm_thread_started` or `rm_thread_ended` by a thread. -/
inductive Event (N : ℕ) where
  | started (t : Fin N)
  | ended (t : Fin N)
  deriving DecidableEq, Repr

namespace Lifetime

variable {N : ℕ}

def start (g : Registry) : Lifetime N := ⟨g, 0, fun _ => .unstarted⟩

def act (handle : Fin N → Handle) (s : Lifetime N) : Event N → Option (Lifetime N)
  | .started t =>
    if s.phase t = .unstarted then
      some { s with
        registry := rmThreadStarted s.registry (handle t) t
        phase := Function.update s.phase t .live }
    else none
  | .ended t =>
    if s.phase t = .live then
      let (free, registry) := rmThreadEnded s.registry
      some ⟨registry, if free then s.freed + 1 else s.freed, Function.update s.phase t .ended⟩
    else none

/-- No thread that is live, or has yet to start, finds the tables freed. -/
def FreedLast (s : Lifetime N) : Prop := 0 < s.freed → ∀ t, s.phase t = .ended

/-- A thread that ends leaves another live one, or is the last of all. -/
def InTime (s : Lifetime N) : Event N → Prop
  | .started _ => True
  | .ended t => (∃ u ≠ t, s.phase u = .live) ∨ ∀ u ≠ t, s.phase u = .ended

/-! ## The counter of live threads -/

/-- The threads that have started and not ended. -/
def live (phase : Fin N → Phase) : Finset (Fin N) := Finset.univ.filter fun t => phase t = .live

variable {handle : Fin N → Handle} {s s' : Lifetime N} {phase : Fin N → Phase} {t u : Fin N}

@[simp] theorem mem_live : t ∈ live phase ↔ phase t = .live := by simp [live]

theorem live_started : live (Function.update phase t .live) = insert t (live phase) := by
  ext u
  rcases eq_or_ne u t with rfl | hu
  · simp
  · simp [hu]

theorem live_ended : live (Function.update phase t .ended) = (live phase).erase t := by
  ext u
  rcases eq_or_ne u t with rfl | hu
  · simp
  · simp [hu]

theorem act_started (h : s.act handle (.started t) = some s') :
    s.phase t = .unstarted ∧ s' = { s with
      registry := rmThreadStarted s.registry (handle t) t
      phase := Function.update s.phase t .live } := by
  by_cases ht : s.phase t = .unstarted
  · exact ⟨ht, by simpa [act, ht] using h.symm⟩
  · simp [act, ht] at h

theorem act_ended (h : s.act handle (.ended t) = some s') :
    s.phase t = .live ∧ s' = ⟨(rmThreadEnded s.registry).2,
      if (rmThreadEnded s.registry).1 then s.freed + 1 else s.freed,
      Function.update s.phase t .ended⟩ := by
  by_cases ht : s.phase t = .live
  · exact ⟨ht, by simpa [act, ht] using h.symm⟩
  · simp [act, ht] at h

/-- `tcount` is the number of live threads. -/
def Counted (s : Lifetime N) : Prop := s.registry.tcount = (live s.phase).card

theorem Counted.step (h : s.Counted) {e : Event N} (hact : s.act handle e = some s') :
    s'.Counted := by
  unfold Counted at *
  cases e with
  | started t =>
    obtain ⟨ht, rfl⟩ := act_started hact
    have hnot : t ∉ live s.phase := by simp [ht]
    rw [live_started, Finset.card_insert_of_notMem hnot]
    simp [rmThreadStarted, h]
  | ended t =>
    obtain ⟨ht, rfl⟩ := act_ended hact
    have hmem : t ∈ live s.phase := by simp [ht]
    have hpos := Finset.card_pos.mpr ⟨t, hmem⟩
    rw [live_ended, Finset.card_erase_of_mem hmem]
    simp only [rmThreadEnded, h]
    omega

/-- The end of a thread frees the tables exactly when no other thread is live. -/
theorem Counted.free_iff (h : s.Counted) (ht : s.phase t = .live) :
    (rmThreadEnded s.registry).1 = true ↔ ∀ u ≠ t, s.phase u ≠ .live := by
  have hmem : t ∈ live s.phase := by simp [ht]
  have hfree : (rmThreadEnded s.registry).1 = true ↔ (live s.phase).card = 1 := by
    simp only [rmThreadEnded, beq_iff_eq, show s.registry.tcount = _ from h]
    omega
  rw [hfree, Finset.card_eq_one]
  constructor
  · rintro ⟨v, hv⟩ u hu hul
    have hut : u ∈ ({v} : Finset (Fin N)) := hv ▸ mem_live.mpr hul
    have htv : t ∈ ({v} : Finset (Fin N)) := hv ▸ hmem
    rw [Finset.mem_singleton] at hut htv
    exact hu (hut.trans htv.symm)
  · intro hother
    refine ⟨t, Finset.eq_singleton_iff_unique_mem.mpr ⟨hmem, fun u hu => ?_⟩⟩
    exact by_contra fun hne => hother u hne (mem_live.mp hu)

/-! ## Runs -/

open Classical in
/-- As long as threads end in time, the tables are freed by the last end and not before. -/
structure Kept (s : Lifetime N) : Prop where
  counted : s.Counted
  freed : s.freed = if 0 < N ∧ ∀ t, s.phase t = .ended then 1 else 0

theorem Kept.step (h : s.Kept) {e : Event N} (hin : s.InTime e)
    (hact : s.act handle e = some s') : s'.Kept := by
  refine ⟨h.counted.step hact, ?_⟩
  cases e with
  | started t =>
    obtain ⟨ht, rfl⟩ := act_started hact
    have hbefore : ¬ ∀ u, s.phase u = .ended := fun hall => by simp [hall] at ht
    have hafter : ¬ ∀ u, Function.update s.phase t .live u = .ended := fun hall => by
      simpa using hall t
    rw [h.freed, if_neg fun hall => hbefore hall.2, if_neg fun hall => hafter hall.2]
  | ended t =>
    obtain ⟨ht, rfl⟩ := act_ended hact
    have hbefore : ¬ ∀ u, s.phase u = .ended := fun hall => by simp [hall] at ht
    have hfree := h.counted.free_iff ht
    have hfreed : s.freed = 0 := by rw [h.freed, if_neg fun hall => hbefore hall.2]
    rcases hin with ⟨u, hut, hu⟩ | hlast
    · have hno : (rmThreadEnded s.registry).1 = false := by
        rw [← Bool.not_eq_true, hfree]
        exact fun hall => hall u hut hu
      have hafter : ¬ ∀ u, Function.update s.phase t .ended u = .ended := fun hall => by
        have := hall u
        simp [hut, hu] at this
      simp [hno, hfreed, hafter]
    · have hyes : (rmThreadEnded s.registry).1 = true := by
        rw [hfree]
        intro u hu
        simp [hlast u hu]
      have hafter : ∀ u, Function.update s.phase t .ended u = .ended := fun u => by
        rcases eq_or_ne u t with rfl | hu
        · simp
        · simp [hu, hlast u hu]
      simp [hyes, hfreed, hafter, t.pos]

theorem Kept.freedLast (h : s.Kept) : s.FreedLast := by
  intro hpos
  by_contra hall
  rw [h.freed, if_neg fun h => hall h.2] at hpos
  exact absurd hpos (lt_irrefl _)

theorem kept_start {g : Registry} (hg : g.tcount = 0) : (start g : Lifetime N).Kept where
  counted := by simp [Counted, start, hg, live]
  freed := by
    symm
    refine if_neg fun ⟨hN, hall⟩ => ?_
    simpa [start] using hall ⟨0, hN⟩

/-- Freeing the tables while a thread has yet to start shows in the state after it. -/
theorem Counted.inTime (h : s.Counted) {e : Event N} (hact : s.act handle e = some s')
    (hlast : s'.FreedLast) : s.InTime e := by
  cases e with
  | started t => trivial
  | ended t =>
    obtain ⟨ht, rfl⟩ := act_ended hact
    by_cases hother : ∃ u ≠ t, s.phase u = .live
    · exact .inl hother
    · have hfree : (rmThreadEnded s.registry).1 = true := by
        rw [h.free_iff ht]
        exact fun u hu hul => hother ⟨u, hu, hul⟩
      refine .inr fun u hu => ?_
      have := hlast (by simp [hfree]) u
      simpa [hu] using this

/-- The tables are freed once and after every thread has ended exactly in the runs in which
threads end in time. -/
theorem tables_outlive_users {g : Registry} {pCount rCount avoid : ℤ} {rExist : ℕ → ℤ}
    {rm : Manager pCount.toNat rCount.toNat} (hg : g.tcount = 0)
    (hinit : rmInit g pCount rCount rExist avoid = some rm)
    {handle : Fin pCount.toNat → Handle} {events : List (Event pCount.toNat)}
    {s : Lifetime pCount.toNat}
    (hrun : System.perform (act handle) events (start rm.toRegistry) = some s)
    (hend : ∀ t, s.phase t = .ended) :
    (System.Always (act handle) FreedLast (start rm.toRegistry) events ∧ s.freed = 1) ↔
      0 < pCount.toNat ∧ System.Meets (act handle) InTime (start rm.toRegistry) events := by
  have hreg : rm.toRegistry = g := (rmInit_eq_some hinit).2 ▸ rfl
  rw [hreg] at hrun ⊢
  have hstart := kept_start (N := pCount.toNat) hg
  have hstep (s : Lifetime pCount.toNat) (e : Event pCount.toNat) (t : Lifetime pCount.toNat)
      (hs : s.Kept) (hin : s.InTime e) (hact : s.act handle e = some t) : t.Kept :=
    hs.step hin hact
  constructor
  · rintro ⟨halways, hfreed⟩
    refine ⟨Nat.pos_of_ne_zero fun hN => ?_, halways.meets hstart.counted
      (fun s e t hs hact => hs.step hact) fun s e t hs hact hlast => hs.inTime hact hlast⟩
    -- without threads nothing happens
    have hnone : events = [] := by
      cases events with
      | nil => rfl
      | cons e events =>
        have : IsEmpty (Fin pCount.toNat) := by rw [hN]; infer_instance
        cases e with
        | started t => exact isEmptyElim t
        | ended t => exact isEmptyElim t
    subst hnone
    obtain rfl := Option.some.inj hrun
    simp [start] at hfreed
  · rintro ⟨hN, hmeets⟩
    have hs := hmeets.perform hstart hstep hrun
    refine ⟨hmeets.always hstart hstep fun s hs => hs.freedLast, ?_⟩
    rw [hs.freed, if_pos ⟨hN, hend⟩]

/-! ## Two threads -/

/-- The globals of a fresh process. -/
def fresh : Registry := ⟨0, fun _ => 0⟩

/-- The tables of app.c. -/
def tables : Manager (2 : ℤ).toNat (1 : ℤ).toNat :=
  (rmInit fresh 2 1 (fun _ => 8) 1).get (by decide)

/-- The two threads of a run, in the order of these events, under the handles 1 and 2. -/
def runTwo (events : List (Event (2 : ℤ).toNat)) : Option (Lifetime (2 : ℤ).toNat) :=
  System.perform (act fun t => t.val + 1) events (start tables.toRegistry)

def first : Fin (2 : ℤ).toNat := ⟨0, by decide⟩
def second : Fin (2 : ℤ).toNat := ⟨1, by decide⟩

/-- The threads overlap. -/
def overlapping : List (Event (2 : ℤ).toNat) :=
  [.started first, .started second, .ended first, .ended second]

/-- The second thread starts after the first one has ended. -/
def staggered : List (Event (2 : ℤ).toNat) :=
  [.started first, .ended first, .started second, .ended second]

theorem tables_outlive_users_overlapping :
    (System.Always (act fun t => t.val + 1) FreedLast (start tables.toRegistry) overlapping ∧
      ((runTwo overlapping).get (by decide)).freed = 1) ↔
      0 < (2 : ℤ).toNat ∧
        System.Meets (act fun t => t.val + 1) InTime (start tables.toRegistry) overlapping :=
  tables_outlive_users (g := fresh) rfl (Option.some_get _).symm
    (Option.some_get (by decide)).symm (by decide)

/-- Then the tables are freed twice. -/
theorem tables_freed_twice :
    (∀ t, ((runTwo staggered).get (by decide)).phase t = .ended) ∧
      ¬ (System.Always (act fun t => t.val + 1) FreedLast (start tables.toRegistry) staggered ∧
        ((runTwo staggered).get (by decide)).freed = 1) :=
  ⟨by decide, fun h => absurd h.2 (by decide)⟩

end Lifetime

end Cs342.ResourceManager
