import Mathlib.Data.Set.Card
import Cs342.ResourceManager.Conservation

/-!
# Deadlock detection

Without avoidance the detector is exact. The threads it counts form a stuck set for
the pending requests: no continuation changes a row of theirs, so none of them is
ever granted. The threads it does not count are served by the order in which the
reduction finished them: each is granted its request and releases all it holds.
-/

namespace Cs342.ResourceManager

open Library Manager

namespace Sys

variable {N M : ℕ} {handle : Fin N → Handle} {ex : Vec M} {s s' : Sys N M}

/-- A step keeps a stuck set of blocked threads stuck and blocked. -/
theorem Inv.stuck_of_effect (h : Inv handle 0 ex s) (e : Effect s s') {S : Finset (Fin N)}
    (hS : s.rm.requestPool.Stuck S) (hb : ∀ i ∈ S, (s.threads i).isBlocked = true) :
    s'.rm.requestPool.Stuck S ∧ ∀ i ∈ S, (s'.threads i).isBlocked = true := by
  have h' := h.of_effect (.inl rfl) e
  have ht : s'.rm.requestPool.total = s.rm.requestPool.total := h'.total.trans h.total.symm
  -- a running thread is not a member, so its rows do not matter
  have hne {t : Fin N} (run : s.threads t = .running) : ∀ i ∈ S, i ≠ t := by
    rintro i hi rfl
    simpa [run, Local.isBlocked] using hb i hi
  cases e with
  | reject => exact ⟨hS, hb⟩
  | claim => exact ⟨hS.congr ht (fun _ _ => rfl) fun _ _ => rfl, hb⟩
  | @wait t v tries =>
    refine ⟨hS.congr ht (fun _ _ => rfl) fun i hi => ?_, fun i hi => ?_⟩ <;>
      by_cases hit : i = t
    · subst hit
      rcases tries with run | ⟨b, hblk⟩
      · exact absurd rfl (hne run i hi)
      · simp [requestPool, h.requests_of_blocked hblk]
    · simp [requestPool, hit]
    · subst hit; simp [Local.isBlocked]
    · simpa [hit] using hb i hi
  | @grant t v tries _ _ yes =>
    have hne' : ∀ i ∈ S, i ≠ t := by
      rintro i hi rfl
      rcases tries with run | ⟨b, hblk⟩
      · exact hne run i hi rfl
      · refine hS.not_le_free h.allocation_nonneg hi ?_
        simpa [requestPool, h.requests_of_blocked hblk] using yes.1 h.avoid
    refine ⟨hS.congr ht (fun i hi => ?_) fun i hi => ?_, fun i hi => ?_⟩
    · simp [requestPool, allocate, hne' i hi]
    · simp [requestPool, allocate, hne' i hi]
    · simpa [hne' i hi] using hb i hi
  | release run =>
    refine ⟨hS.congr ht (fun i hi => ?_) fun _ _ => rfl, fun i hi => by simpa using hb i hi⟩
    simp [requestPool, hne run i hi]

end Sys

namespace Session

open Sys

variable {c : Session} {s : Sys c.N c.M}

/-- A blocked thread whose request no continuation of the run grants. -/
def Deadlocked (c : Session) (s : Sys c.N c.M) (t : Fin c.N) : Prop :=
  (s.threads t).isBlocked = true ∧ ¬ ∃ s', c.system.Steps s s' ∧ s'.threads t = .running

/-- A thread whose pending request is available is granted it and then releases all it
holds. -/
theorem serve (ha : c.avoid = 0) (hs : c.system.Reachable s) {t : Fin c.N}
    (hle : s.rm.requests t ≤ s.rm.available) :
    ∃ s', c.system.Steps s s' ∧ s'.threads t = .running ∧
      s'.rm.available = s.rm.available + s.rm.allocation t ∧
      (∀ i ≠ t, s'.rm.allocation i = s.rm.allocation i) ∧
      ∀ i ≠ t, s'.rm.requests i = s.rm.requests i := by
  have h := inv (.inl ha) hs
  -- first the grant, unless the thread is not waiting
  obtain ⟨u, hu, run, havail, halloc, hreq⟩ : ∃ u, c.system.Steps s u ∧ u.threads t = .running ∧
      u.rm.available + u.rm.allocation t = s.rm.available + s.rm.allocation t ∧
      (∀ i ≠ t, u.rm.allocation i = s.rm.allocation i) ∧
      ∀ i ≠ t, u.rm.requests i = s.rm.requests i := by
    cases hb : s.threads t with
    | running => exact ⟨s, .refl, hb, rfl, fun _ _ => rfl, fun _ _ => rfl⟩
    | blocked v b =>
      have hv := h.requests_of_blocked hb
      have hg : s.rm.Grantable t v :=
        ⟨fun _ => hv ▸ hle, fun ho => absurd (h.avoid.symm.trans ho) (by simp [ha])⟩
      refine ⟨_, .single ⟨_, h.act_recheck hb hg⟩, by simp, by simp [allocate], ?_, ?_⟩ <;>
        intro i hi <;> simp [allocate, hi]
  have hu' := inv (.inl ha) (hs.steps hu)
  refine ⟨_, hu.tail ⟨_, hu'.act_release run (hu'.allocation_nonneg t) le_rfl⟩, ?_, havail, ?_,
    hreq⟩
  · simp [run, Local.signal]
  · intro i hi
    simpa [hi] using halloc i hi

/-- Every member of a served list of pending requests is granted in some continuation. -/
theorem runs_of_served (ha : c.avoid = 0) {order : List (Fin c.N)} (hnd : order.Nodup)
    (hs : c.system.Reachable s) (hserved : s.rm.requestPool.Served s.rm.available order)
    {t : Fin c.N} (ht : t ∈ order) : ∃ s', c.system.Steps s s' ∧ s'.threads t = .running := by
  induction order generalizing s with
  | nil => simp at ht
  | cons x xs ih =>
    obtain ⟨hx, hxs⟩ := List.nodup_cons.mp hnd
    obtain ⟨u, hu, run, havail, halloc, hreq⟩ := serve ha hs hserved.1
    rcases List.mem_cons.mp ht with rfl | ht
    · exact ⟨u, hu, run⟩
    · have hne : ∀ i ∈ xs, i ≠ x := fun i hi h => hx (h ▸ hi)
      obtain ⟨s', hs', hrun⟩ := ih hxs (hs.steps hu)
        (havail ▸ hserved.2.congr (fun i hi => halloc i (hne i hi)) fun i hi =>
          hreq i (hne i hi)) ht
      exact ⟨s', hu.trans hs', hrun⟩

theorem deadlocked_iff (ha : c.avoid = 0) (hs : c.system.Reachable s) (t : Fin c.N) :
    c.Deadlocked s t ↔
      (firstPicker s.rm.requests).finish s.rm.allocation s.rm.available t = false := by
  have h := inv (.inl ha) hs
  let k : Picker s.rm.requestPool.need := firstPicker s.rm.requests
  constructor
  · rintro ⟨-, hnever⟩
    by_contra hfin
    obtain ⟨order, hnd, hmem, hserved⟩ := k.finish_order
    exact hnever (runs_of_served ha hnd hs hserved ((hmem t).mpr ((Bool.not_eq_false _).mp hfin)))
  · intro hfin
    set S := Finset.univ.filter fun i => k.finish s.rm.allocation s.rm.available i = false
    have htS : t ∈ S := (Finset.mem_filter_univ t).mpr hfin
    have hS : s.rm.requestPool.Stuck S := k.finish_stuck
    -- a running thread asks for nothing, which is always available
    have hb : ∀ i ∈ S, (s.threads i).isBlocked = true := by
      intro i hi
      cases hst : s.threads i with
      | blocked => rfl
      | running =>
        refine absurd ?_ (hS.not_le_free h.allocation_nonneg hi)
        simpa [requestPool, h.requests i, hst, Local.pending] using h.available_nonneg
    refine ⟨hb t htS, ?_⟩
    rintro ⟨s', hs', hrun⟩
    have hinv : s'.rm.requestPool.Stuck S ∧ ∀ i ∈ S, (s'.threads i).isBlocked = true := by
      refine hs'.invariant (I := fun s' => s'.rm.requestPool.Stuck S ∧
        ∀ i ∈ S, (s'.threads i).isBlocked = true) ⟨hS, hb⟩ ?_
      rintro u v hu ⟨hSu, hbu⟩ ⟨a, hact⟩
      have hu' := inv (.inl ha) (hs.steps hu)
      exact (ha ▸ hu').stuck_of_effect (hu'.effect hact) hSu hbu
    simpa [hrun, Local.isBlocked] using hinv.2 t htS

theorem rmDetection_eq_card (ha : c.avoid = 0) (hs : c.system.Reachable s) :
    s.rm.rmDetection = (Finset.univ.filter fun i =>
      (firstPicker s.rm.requests).finish s.rm.allocation s.rm.available i = false).card := by
  by_cases ht : s.rm.tcount = 0
  · have hN : c.N = 0 := by exact_mod_cast (ht.symm.trans (inv (.inl ha) hs).tcount).symm
    have : IsEmpty (Fin c.N) := by rw [hN]; infer_instance
    simp [rmDetection, ht]
  · exact rmDetection_eq _ ht

/-- The detector returns the number of deadlocked threads: it counts nobody who could
still be served and misses nobody who never will. -/
theorem detection_exact (ha : c.avoid = 0) (hs : c.system.Reachable s) :
    s.rm.rmDetection = ({t | c.Deadlocked s t} : Set (Fin c.N)).ncard := by
  have hset : {t | c.Deadlocked s t} = ((Finset.univ.filter fun i =>
      (firstPicker s.rm.requests).finish s.rm.allocation s.rm.available i = false :
        Finset (Fin c.N)) : Set (Fin c.N)) := by
    ext t
    rw [Finset.mem_coe, Finset.mem_filter_univ]
    exact deadlocked_iff ha hs t
  rw [hset, Set.ncard_coe_finset]
  exact rmDetection_eq_card ha hs

/-- Both threads of app.c are counted, and neither is ever served. -/
theorem detection_exact_appEnd :
    appEnd.rm.rmDetection = 2 ∧
    appEnd.rm.rmDetection = ({t | (app 0).Deadlocked appEnd t} : Set (Fin (app 0).N)).ncard :=
  ⟨by decide +kernel, detection_exact rfl reachable_appEnd⟩

/-- A deadlocked thread stays so, and keeps what it holds and what it waits for. -/
theorem Deadlocked.steps (ha : c.avoid = 0) (hs : c.system.Reachable s) {s' : Sys c.N c.M}
    (hst : c.system.Steps s s') {t : Fin c.N} (ht : c.Deadlocked s t) :
    c.Deadlocked s' t ∧ s'.rm.allocation t = s.rm.allocation t ∧
      s'.rm.requests t = s.rm.requests t := by
  have hstays {u : Sys c.N c.M} (hu : c.system.Steps s u) : (u.threads t).isBlocked = true := by
    cases hb : u.threads t with
    | running => exact absurd ⟨u, hu, hb⟩ ht.2
    | blocked => rfl
  refine ⟨⟨hstays hst, fun ⟨u, hu, hrun⟩ => ht.2 ⟨u, hst.trans hu, hrun⟩⟩, ?_⟩
  refine hst.invariant (I := fun u => u.rm.allocation t = s.rm.allocation t ∧
    u.rm.requests t = s.rm.requests t) ⟨rfl, rfl⟩ ?_
  rintro u v hu ⟨halloc, hreq⟩ hstep
  have h := inv (.inl ha) (hs.steps hu)
  have hv := hstays (hu.tail hstep)
  obtain ⟨a, hact⟩ := hstep
  rw [← halloc, ← hreq]
  cases h.effect hact with
  | reject | claim => exact ⟨rfl, rfl⟩
  | @wait x w tries =>
    refine ⟨rfl, ?_⟩
    rcases eq_or_ne t x with rfl | hne
    · rcases tries with hrun | ⟨b, hb⟩
      · simpa [hrun, Local.isBlocked] using hstays hu
      · simp [h.requests_of_blocked hb]
    · simp [hne]
  | @grant x w =>
    have hne : t ≠ x := by
      rintro rfl
      simp [Local.isBlocked] at hv
    simp [allocate, hne]
  | @release x w hrun =>
    have hne : t ≠ x := by
      rintro rfl
      simpa [hrun, Local.isBlocked] using hstays hu
    simp [hne]

/-- What the detector has counted once it counts ever after: its result never sinks. -/
theorem detection_monotone (ha : c.avoid = 0) (hs : c.system.Reachable s) {s' : Sys c.N c.M}
    (hst : c.system.Steps s s') :
    s.rm.rmDetection ≤ s'.rm.rmDetection ∧ ∀ t, c.Deadlocked s t → c.Deadlocked s' t ∧
      s'.rm.allocation t = s.rm.allocation t ∧ s'.rm.requests t = s.rm.requests t := by
  refine ⟨?_, fun t ht => ht.steps ha hs hst⟩
  rw [rmDetection_eq_card ha hs, rmDetection_eq_card ha (hs.steps hst), Nat.cast_le]
  refine Finset.card_le_card fun t ht => ?_
  rw [Finset.mem_filter_univ, ← deadlocked_iff ha (hs.steps hst)]
  exact ((deadlocked_iff ha hs t).mpr ((Finset.mem_filter_univ t).mp ht)).steps ha hs hst |>.1

/-- Thread 1 of app.c waits, and thread 0 could still be served. -/
def appBefore : Sys (app 0).N (app 0).M := ((app 0).run (appCalls.take 5)).get (by decide +kernel)

/-- Thread 0 waits as well. -/
def appAfter : Sys (app 0).N (app 0).M :=
  (System.perform (Sys.act (app 0).handle) (appCalls.drop 5) appBefore).get (by decide +kernel)

theorem detection_monotone_appBefore :
    appBefore.rm.rmDetection ≤ appAfter.rm.rmDetection ∧
      ∀ t, (app 0).Deadlocked appBefore t → (app 0).Deadlocked appAfter t ∧
        appAfter.rm.allocation t = appBefore.rm.allocation t ∧
        appAfter.rm.requests t = appBefore.rm.requests t :=
  detection_monotone rfl
    ((app 0).reachable_run (by decide) (by decide) (Option.some_get _).symm)
    (System.steps_of_perform (Option.some_get _).symm)

end Session

end Cs342.ResourceManager
