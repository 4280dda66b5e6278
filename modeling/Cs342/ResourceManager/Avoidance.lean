import Cs342.ResourceManager.Conservation

/-!
# Deadlock avoidance

With avoidance every reachable pool is safe: granting is checked, releasing and
claiming cannot hurt. Safety of a tentative grant only gets harder when another
thread is granted something or claims, so a request that had to wait stays
ungrantable until a release, and a release signals every thread. A thread that a
safe order serves first can be granted whatever it asks for, so the threads are
never all left waiting without a signal.
-/

namespace Cs342.ResourceManager

open Library Manager

namespace Sys

variable {N M : ℕ} {handle : Fin N → Handle} {da : ℤ} {ex : Vec M} {s s' : Sys N M}

/-- A step from a state that satisfies the invariant keeps the pool safe. -/
theorem Inv.safe_of_effect (h : Inv handle 1 ex s) (hsafe : s.rm.pool.Safe) (e : Effect s s') :
    s'.rm.pool.Safe := by
  have h' := h.of_effect (.inr rfl) e
  cases e with
  | reject => exact hsafe
  | claim first early nonneg le =>
    refine hsafe.raise h.allocation_nonneg (h.fresh _ early).2 ?_
    rw [h.total, ← h.exist]
    exact le
  | wait => exact hsafe
  | grant tries nonneg le yes => exact (yes.2 h.avoid).1
  | @release t v run nonneg le =>
    refine hsafe.antitone (h'.total.trans h.total.symm) h'.allocation_nonneg ?_ ?_
    · intro i
      by_cases hi : i = t
      · subst hi; simpa [pool] using nonneg
      · simp [pool, hi]
    · intro i
      by_cases hi : i = t
      · subst hi; simp [pool]
      · simp [pool, hi]

/-- Granting `t` is the easier the less the others hold and may come to hold. -/
theorem safe_grant_of_safe_grant {p q : Pool (Fin N) (Vec M)} {t : Fin N} {v : Vec M}
    (hsafe : (p.grant t v).Safe) (ht : q.total = p.total)
    (h0 : ∀ i, 0 ≤ (q.grant t v).held i) (hh : ∀ i, q.held i ≤ p.held i)
    (hc : ∀ i, q.need i + q.held i ≤ p.need i + p.held i) : (q.grant t v).Safe := by
  refine hsafe.antitone (by simpa using ht) h0 (fun i => ?_) fun i => by simpa using hc i
  by_cases hi : i = t
  · subst hi; simpa [Pool.grant] using hh i
  · simpa [Pool.grant, hi] using hh i

/-- No action other than a release makes a waiting request grantable, and a release
signals. -/
theorem Inv.not_grantable_of_effect (h : Inv handle da ex s) (e : Effect s s')
    {t : Fin N} {v : Vec M} (hb : s'.threads t = .blocked v false)
    (no : s.threads t = .blocked v false → ¬ s.rm.Grantable t v) : ¬ s'.rm.Grantable t v := by
  cases e with
  | reject => exact no hb
  | @claim u w first early nonneg le =>
    refine fun hg => no hb ⟨fun hz => hg.1 hz, fun ho => ⟨?_, (hg.2 ho).2⟩⟩
    refine safe_grant_of_safe_grant (hg.2 ho).1 rfl
      (h.held_grant_nonneg t (h.nonneg_of_blocked hb))
      (fun _ => le_rfl) fun i => add_le_add ?_ le_rfl
    by_cases hi : i = u
    · -- the thread that claims held and needed nothing before
      subst hi
      have hneed := h.demand i
      rw [(h.fresh i early).2, h.unclaimed i first, add_zero] at hneed
      simpa [pool, hneed] using nonneg
    · simp [pool, hi]
  | @wait u w _ _ _ no' =>
    by_cases hut : t = u
    · subst hut
      obtain rfl : w = v := by simpa using hb
      exact no'
    · exact no (by simpa [hut] using hb)
  | @grant u w _ nonneg _ _ =>
    have hut : t ≠ u := by rintro rfl; simp at hb
    have hb' : s.threads t = .blocked v false := by simpa [hut] using hb
    have havail : (s.rm.allocate u w).available ≤ s.rm.available := sub_le_self _ nonneg
    refine fun hg => no hb' ⟨fun hz => (hg.1 hz).trans havail, fun ho =>
      ⟨?_, (hg.2 ho).2.trans havail⟩⟩
    refine safe_grant_of_safe_grant (hg.2 ho).1 (by simp)
      (h.held_grant_nonneg t (h.nonneg_of_blocked hb')) (fun i => ?_) fun i => by simp
    by_cases hi : i = u
    · subst hi; simpa [Pool.grant] using nonneg
    · simp [Pool.grant, hi]
  | release =>
    cases hst : s.threads t <;> simp [hst, Local.signal] at hb

end Sys

namespace Session

open Sys

variable {c : Session} {s : Sys c.N c.M}

theorem safe (ha : c.avoid = 1) (hs : c.system.Reachable s) : s.rm.pool.Safe := by
  refine hs.invariant (I := fun s => s.rm.pool.Safe) ?_ ?_
  · rintro s ⟨g, rm, starts, -, hinit, -, rfl⟩
    obtain ⟨-, rfl⟩ := rmInit_eq_some hinit
    exact Pool.safe_of_need_le_free (fun _ => le_rfl) fun _ j => c.exist_nonneg j j.isLt
  · rintro s t hr hsafe ⟨a, hact⟩
    have h := inv (.inr ha) hr
    exact (ha ▸ h).safe_of_effect hsafe (h.effect hact)

/-- In every reachable state some order of all threads covers each of them by what is
available and what the threads before it hold. -/
theorem always_safe (ha : c.avoid = 1) (hs : c.system.Reachable s) :
    ∃ order : List (Fin c.N), order.Nodup ∧ (∀ i, i ∈ order) ∧
      ∀ before i after, order = before ++ i :: after →
        ∀ j, s.rm.need i j ≤ s.rm.available j + (before.map fun k => s.rm.allocation k j).sum := by
  obtain ⟨order, hnd, hall, hserved⟩ := safe ha hs
  refine ⟨order, hnd, hall, fun before i after heq j => ?_⟩
  have hle := (s.rm.pool.served_iff _ _).mp hserved before i after heq j
  simpa [pool, Pi.list_sum_apply, Function.comp_def] using hle

theorem always_safe_trioEnd :
    ∃ order : List (Fin trio.N), order.Nodup ∧ (∀ i, i ∈ order) ∧
      ∀ before i after, order = before ++ i :: after →
        ∀ j, trioEnd.rm.need i j ≤
          trioEnd.rm.available j + (before.map fun k => trioEnd.rm.allocation k j).sum :=
  always_safe rfl reachable_trioEnd

/-- A blocked thread without an undelivered signal waits for a request that cannot be
granted. -/
theorem not_grantable (ha : c.avoid = 0 ∨ c.avoid = 1) (hs : c.system.Reachable s) {t : Fin c.N}
    {v : Vec c.M} (hb : s.threads t = .blocked v false) : ¬ s.rm.Grantable t v := by
  refine hs.invariant (I := fun s => s.threads t = .blocked v false → ¬ s.rm.Grantable t v)
    ?_ ?_ hb
  · rintro s ⟨g, rm, starts, -, -, -, rfl⟩ hb
    simp at hb
  · rintro s s' hr no ⟨a, hact⟩ hb
    have h := inv ha hr
    exact h.not_grantable_of_effect (h.effect hact) hb no

/-- The functions' own tests fail for such a request: no wake-up is lost. -/
theorem no_lost_wakeup (ha : c.avoid = 0 ∨ c.avoid = 1) (hs : c.system.Reachable s) {t : Fin c.N}
    {v : Vec c.M} (hb : s.threads t = .blocked v false) :
    (c.avoid = 0 → s.rm.isAvailable v = false) ∧
    (c.avoid = 1 → s.rm.isAvailable v = false ∨ (s.rm.isStateSafe t v).1 = false) := by
  have h := inv ha hs
  have hno := not_grantable ha hs hb
  have hsafe := s.rm.isStateSafe_fst t v (h.held_grant_nonneg t (h.nonneg_of_blocked hb))
  simp only [Grantable, h.avoid, ← isAvailable_iff, ← hsafe] at hno
  refine ⟨fun hz => ?_, fun ho => ?_⟩
  · simpa [hz] using hno
  · cases hav : s.rm.isAvailable v <;> simp_all

/-- Thread 1 waits for one unit that is available but would be unsafe to give. -/
theorem no_lost_wakeup_trioEnd :
    (trio.avoid = 0 → trioEnd.rm.isAvailable (fun _ => 1) = false) ∧
    (trio.avoid = 1 → trioEnd.rm.isAvailable (fun _ => 1) = false ∨
      (trioEnd.rm.isStateSafe (1 : Fin 3) fun _ => 1).1 = false) :=
  no_lost_wakeup (.inr rfl) reachable_trioEnd (by decide +kernel)

/-- If every thread is blocked, one of them has an undelivered signal and its next round
is granted. -/
theorem never_stuck (ha : c.avoid = 1) (hs : c.system.Reachable s) (hN : 0 < c.N)
    (hall : ∀ t, (s.threads t).isBlocked = true) :
    ∃ t v, s.threads t = .blocked v true ∧ (s.rm.isStateSafe t v).1 = true ∧
      s.rm.isAvailable v = true ∧
      ∃ s', Sys.act c.handle s (t, .recheck) = some s' ∧ s'.threads t = .running := by
  have h := inv (.inr ha) hs
  -- the first thread of a safe order needs no more than what is available
  obtain ⟨order, -, hmem, hserved⟩ := safe ha hs
  obtain ⟨t, hneed⟩ : ∃ t, s.rm.need t ≤ s.rm.available := by
    cases order with
    | nil => exact absurd (hmem ⟨0, hN⟩) (by simp)
    | cons t _ => exact ⟨t, hserved.1⟩
  cases hb : s.threads t with
  | running => simpa [hb, Local.isBlocked] using hall t
  | blocked v signalled =>
    have hv := h.nonneg_of_blocked hb
    have havail : v ≤ s.rm.available := (h.le_need_of_blocked hb).trans hneed
    have hgrant : (s.rm.pool.grant t v).Safe :=
      (safe ha hs).grant h.allocation_nonneg hneed hv
    have hg : s.rm.Grantable t v := ⟨fun _ => havail, fun _ => ⟨hgrant, havail⟩⟩
    have hsig : signalled = true := by
      cases signalled
      · exact absurd hg (not_grantable (.inr ha) hs hb)
      · rfl
    exact ⟨t, v, by rw [hb, hsig],
      (s.rm.isStateSafe_fst t v (h.held_grant_nonneg t hv)).mpr hgrant,
      (s.rm.isAvailable_iff v).mpr havail, _, h.act_recheck hb hg, by simp⟩

theorem never_stuck_trioEnd :
    ∃ t v, trioEnd.threads t = .blocked v true ∧ (trioEnd.rm.isStateSafe t v).1 = true ∧
      trioEnd.rm.isAvailable v = true ∧
      ∃ s', Sys.act trio.handle trioEnd (t, .recheck) = some s' ∧ s'.threads t = .running :=
  never_stuck rfl reachable_trioEnd (by decide) (by decide +kernel)

/-- The detector finds nobody deadlocked, not even threads blocked because granting them
would be unsafe. -/
theorem detection_agrees (ha : c.avoid = 1) (hs : c.system.Reachable s) :
    s.rm.rmDetection = 0 := by
  have h := inv (.inr ha) hs
  by_cases ht : s.rm.tcount = 0
  · simp [rmDetection, ht]
  · have hsafe : s.rm.requestPool.Safe :=
      (safe ha hs).antitone rfl h.allocation_nonneg (fun _ => le_rfl)
        fun i => add_le_add (h.requests_le i) le_rfl
    have hall := ((firstPicker s.rm.requests).finish_all_iff_safe (p := s.rm.requestPool)
      h.allocation_nonneg).mpr hsafe
    rw [rmDetection_eq _ ht]
    simpa [requestPool] using hall

theorem detection_agrees_trioEnd : trioEnd.rm.rmDetection = 0 :=
  detection_agrees rfl reachable_trioEnd

end Session

end Cs342.ResourceManager
