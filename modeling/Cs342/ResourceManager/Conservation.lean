import Mathlib.Algebra.BigOperators.Pi
import Cs342.ResourceManager.Session

/-!
# Conservation of resources

`Effect` lists what one action does to a state that satisfies the invariant, with
every guard it has passed. The invariant links the tables: the pool's total is what
exists, need and allocation make up the claim, and the pending requests are those
of the blocked threads.
-/

namespace Cs342.ResourceManager

open Library Manager

namespace Sys

variable {N M : ℕ}

/-- The side conditions that hold between the calls of a session. -/
structure Inv (handle : Fin N → Handle) (da : ℤ) (ex : Vec M) (s : Sys N M) : Prop where
  row : ∀ t, s.rm.row (handle t) = some t
  tcount : s.rm.tcount = N
  avoid : s.rm.DA = da
  exist : s.rm.ExistingRes = ex
  total : s.rm.pool.total = ex
  available_nonneg : 0 ≤ s.rm.available
  allocation_nonneg : ∀ i, 0 ≤ s.rm.allocation i
  demand : ∀ i, s.rm.need i + s.rm.allocation i = s.rm.maxDemand i
  demand_le : ∀ i, s.rm.maxDemand i ≤ ex
  requests : ∀ i, s.rm.requests i = (s.threads i).pending
  requests_nonneg : ∀ i, 0 ≤ s.rm.requests i
  requests_le : ∀ i, s.rm.requests i ≤ s.rm.need i
  fresh : ∀ i, s.requested i = false → s.threads i = .running ∧ s.rm.allocation i = 0
  unclaimed : ∀ i, s.claimed i = false → s.rm.maxDemand i = 0

/-- Thread `t` is about to try to be granted `v`: in a new call, or woken up. -/
def Tries (s : Sys N M) (t : Fin N) (v : Vec M) : Prop :=
  s.threads t = .running ∨ ∃ signalled, s.threads t = .blocked v signalled

/-- What one action can do to a state. -/
inductive Effect (s : Sys N M) : Sys N M → Prop where
  /-- A call that returns -1. -/
  | reject {claimed requested : Fin N → Bool}
      (first : ∀ i, claimed i = false → s.claimed i = false)
      (early : ∀ i, requested i = false → s.requested i = false) :
      Effect s { s with claimed := claimed, requested := requested }
  | claim {t : Fin N} {v : Vec M} (first : s.claimed t = false) (early : s.requested t = false)
      (nonneg : 0 ≤ v) (le : v ≤ s.rm.ExistingRes) :
      Effect s { s with
        claimed := Function.update s.claimed t true
        rm := { s.rm with
          maxDemand := Function.update s.rm.maxDemand t v
          need := Function.update s.rm.need t v } }
  | wait {t : Fin N} {v : Vec M} (tries : s.Tries t v) (nonneg : 0 ≤ v) (le : v ≤ s.rm.need t)
      (no : ¬ s.rm.Grantable t v) :
      Effect s { s with
        rm := { s.rm with requests := Function.update s.rm.requests t v }
        requested := Function.update s.requested t true
        threads := Function.update s.threads t (.blocked v false) }
  | grant {t : Fin N} {v : Vec M} (tries : s.Tries t v) (nonneg : 0 ≤ v) (le : v ≤ s.rm.need t)
      (yes : s.rm.Grantable t v) :
      Effect s { s with
        rm := s.rm.allocate t v
        requested := Function.update s.requested t true
        threads := Function.update s.threads t .running }
  | release {t : Fin N} {v : Vec M} (run : s.threads t = .running) (nonneg : 0 ≤ v)
      (le : v ≤ s.rm.allocation t) :
      Effect s { s with
        rm := { s.rm with
          available := s.rm.available + v
          allocation := Function.update s.rm.allocation t (s.rm.allocation t - v)
          need := Function.update s.rm.need t (s.rm.need t + v) }
        threads := fun i => (s.threads i).signal }

variable {handle : Fin N → Handle} {da : ℤ} {ex : Vec M} {s s' : Sys N M}

theorem Inv.held_grant_nonneg (h : Inv handle da ex s) (t : Fin N) {v : Vec M}
    (hv : 0 ≤ v) (i : Fin N) : 0 ≤ (s.rm.pool.grant t v).held i :=
  Manager.held_grant_nonneg h.allocation_nonneg hv i

/-- The request of a blocked thread is the one in its `requests` row. -/
theorem Inv.requests_of_blocked (h : Inv handle da ex s) {t : Fin N} {v : Vec M} {b : Bool}
    (hb : s.threads t = .blocked v b) : s.rm.requests t = v := by
  rw [h.requests t, hb]
  rfl

theorem Inv.nonneg_of_blocked (h : Inv handle da ex s) {t : Fin N} {v : Vec M} {b : Bool}
    (hb : s.threads t = .blocked v b) : 0 ≤ v :=
  h.requests_of_blocked hb ▸ h.requests_nonneg t

theorem Inv.le_need_of_blocked (h : Inv handle da ex s) {t : Fin N} {v : Vec M} {b : Bool}
    (hb : s.threads t = .blocked v b) : v ≤ s.rm.need t :=
  h.requests_of_blocked hb ▸ h.requests_le t

/-- A flag that is still down after one thread raised its own was down before. -/
theorem of_update_true {f : Fin N → Bool} {t i : Fin N}
    (h : Function.update f t true i = false) : f i = false := by
  by_cases hi : i = t
  · subst hi; simp at h
  · simpa [hi] using h

/-- A new request either fails its checks or tries to be granted. -/
theorem Inv.request_effect (h : Inv handle da ex s) {t : Fin N} {v : Vec M}
    (run : s.threads t = .running) (hv : 0 ≤ v) :
    Effect s ({ s with requested := Function.update s.requested t true }.settle t v
      (s.rm.rmRequest t v)) := by
  unfold rmRequest
  split_ifs with hneed hexist
  · exact .reject (fun _ => id) fun _ => of_update_true
  · exact .reject (fun _ => id) fun _ => of_update_true
  · have hle : v ≤ s.rm.need t := by simpa using hneed
    set rm : Manager N M := { s.rm with requests := Function.update s.rm.requests t v } with hrm
    have h0 : ∀ i, 0 ≤ (rm.pool.grant t v).held i := h.held_grant_nonneg t hv
    by_cases hg : s.rm.Grantable t v
    · rw [tryGrant_of_grantable h0 hg]
      have := Effect.grant (.inl run) hv hle hg
      simpa [settle, allocate, hrm] using this
    · rw [tryGrant_of_not_grantable h0 hg]
      exact Effect.wait (.inl run) hv hle hg

/-- A woken thread tries again with its pending request. -/
theorem Inv.recheck_effect (h : Inv handle da ex s) {t : Fin N} {v : Vec M}
    {signalled : Bool} (hb : s.threads t = .blocked v signalled) :
    Effect s (s.settle t v (s.rm.tryGrant t v)) := by
  have hv := h.nonneg_of_blocked hb
  have hle := h.le_need_of_blocked hb
  have hrt : s.requested t = true := by
    by_contra hf
    simp [(h.fresh t (by simpa using hf)).1] at hb
  have h0 := h.held_grant_nonneg t hv
  by_cases hg : s.rm.Grantable t v
  · rw [tryGrant_of_grantable h0 hg]
    have := Effect.grant (.inr ⟨_, hb⟩) hv hle hg
    simpa [settle, ← hrt] using this
  · rw [tryGrant_of_not_grantable h0 hg]
    have := Effect.wait (.inr ⟨_, hb⟩) hv hle hg
    simpa [settle, ← hrt, ← h.requests_of_blocked hb] using this

/-- A woken thread whose request is grantable returns from `rm_request`. -/
theorem Inv.act_recheck (h : Inv handle da ex s) {t : Fin N} {v : Vec M} {b : Bool}
    (hb : s.threads t = .blocked v b) (hg : s.rm.Grantable t v) :
    s.act handle (t, .recheck) = some { s with
      rm := s.rm.allocate t v
      threads := Function.update s.threads t .running } := by
  have h0 := h.held_grant_nonneg t (h.nonneg_of_blocked hb)
  simp only [act, hb, h.row, Option.map_some, tryGrant_of_grantable h0 hg, settle]

theorem Inv.act_release (h : Inv handle da ex s) {t : Fin N} {v : Vec M}
    (run : s.threads t = .running) (hv : 0 ≤ v) (hle : v ≤ s.rm.allocation t) :
    s.act handle (t, .release v) = some { s with
      rm := { s.rm with
        available := s.rm.available + v
        allocation := Function.update s.rm.allocation t (s.rm.allocation t - v)
        need := Function.update s.rm.need t (s.rm.need t + v) }
      threads := fun i => (s.threads i).signal } := by
  have hnot : ¬ anyAbove v (s.rm.allocation t) = true := by simpa using hle
  have hpos : ∀ j, 0 ≤ v j := hv
  simp [act, run, hpos, h.row, rmRelease, hnot]

/-- Every action has one of the listed effects. -/
theorem Inv.effect (h : Inv handle da ex s) {a : Fin N × Call M}
    (ha : s.act handle a = some s') : Effect s s' := by
  obtain ⟨t, call⟩ := a
  cases call with
  | claim v =>
    simp only [act, h.row, Option.map_some, Option.ite_none_right_eq_some,
      Option.some.injEq] at ha
    obtain ⟨⟨-, first, early, hv⟩, rfl⟩ := ha
    unfold rmClaim
    split_ifs with hex
    · exact .reject (fun _ => of_update_true) fun _ => id
    · exact .claim first early hv (by simpa using hex)
  | request v =>
    simp only [act, h.row, Option.map_some, Option.ite_none_right_eq_some,
      Option.some.injEq] at ha
    obtain ⟨⟨run, hv⟩, rfl⟩ := ha
    exact h.request_effect run hv
  | recheck =>
    cases hb : s.threads t with
    | running => simp [act, hb] at ha
    | blocked v signalled =>
      simp only [act, hb, h.row, Option.map_some, Option.some.injEq] at ha
      subst ha
      exact h.recheck_effect hb
  | release v =>
    simp only [act, h.row, Option.map_some, Option.ite_none_right_eq_some,
      Option.some.injEq] at ha
    obtain ⟨⟨run, hv⟩, rfl⟩ := ha
    by_cases hal : v ≤ s.rm.allocation t
    · rw [rmRelease, if_neg (by simpa using hal)]
      exact .release run hv hal
    · rw [rmRelease, if_pos (by simpa using hal)]
      exact .reject (fun _ => id) fun _ => id

/-! ## The invariant is kept -/

/-- A request that avoidance or plain availability grants fits what is available. -/
theorem Inv.le_available (h : Inv handle da ex s) (hda : da = 0 ∨ da = 1) {t : Fin N} {v : Vec M}
    (hg : s.rm.Grantable t v) : v ≤ s.rm.available := by
  rcases hda with hz | ho
  · exact hg.1 (h.avoid.trans hz)
  · exact (hg.2 (h.avoid.trans ho)).2

theorem Inv.of_reject (h : Inv handle da ex s) {claimed requested : Fin N → Bool}
    (first : ∀ i, claimed i = false → s.claimed i = false)
    (early : ∀ i, requested i = false → s.requested i = false) :
    Inv handle da ex { s with claimed := claimed, requested := requested } :=
  { h with
    fresh := fun i hi => h.fresh i (early i hi)
    unclaimed := fun i hi => h.unclaimed i (first i hi) }

theorem Inv.of_claim (h : Inv handle da ex s) {t : Fin N} {v : Vec M}
    (early : s.requested t = false) (hv : 0 ≤ v) (le : v ≤ s.rm.ExistingRes) :
    Inv handle da ex { s with
      claimed := Function.update s.claimed t true
      rm := { s.rm with
        maxDemand := Function.update s.rm.maxDemand t v
        need := Function.update s.rm.need t v } } := by
  obtain ⟨run, hold⟩ := h.fresh t early
  refine { h with demand := ?_, demand_le := ?_, requests_le := ?_, unclaimed := ?_ } <;>
    intro i <;> by_cases hi : i = t
  · subst hi; simp [hold]
  · simpa [hi] using h.demand i
  · subst hi; simpa [h.exist] using le
  · simpa [hi] using h.demand_le i
  · subst hi; simpa [h.requests, run, Local.pending] using hv
  · simpa [hi] using h.requests_le i
  · subst hi; simp
  · simpa [hi] using h.unclaimed i

theorem Inv.of_wait (h : Inv handle da ex s) {t : Fin N} {v : Vec M} (hv : 0 ≤ v)
    (le : v ≤ s.rm.need t) :
    Inv handle da ex { s with
      rm := { s.rm with requests := Function.update s.rm.requests t v }
      requested := Function.update s.requested t true
      threads := Function.update s.threads t (.blocked v false) } := by
  refine { h with requests := ?_, requests_nonneg := ?_, requests_le := ?_, fresh := ?_ } <;>
    intro i <;> by_cases hi : i = t
  · subst hi; simp [Local.pending]
  · simpa [hi] using h.requests i
  · subst hi; simpa using hv
  · simpa [hi] using h.requests_nonneg i
  · subst hi; simpa using le
  · simpa [hi] using h.requests_le i
  · subst hi; simp
  · simpa [hi] using h.fresh i

theorem Inv.of_grant (h : Inv handle da ex s) (hda : da = 0 ∨ da = 1) {t : Fin N} {v : Vec M}
    (hv : 0 ≤ v) (le : v ≤ s.rm.need t) (yes : s.rm.Grantable t v) :
    Inv handle da ex { s with
      rm := s.rm.allocate t v
      requested := Function.update s.requested t true
      threads := Function.update s.threads t .running } := by
  refine { h with
    total := by simpa using h.total
    available_nonneg := sub_nonneg.mpr (h.le_available hda yes)
    allocation_nonneg := h.held_grant_nonneg t hv
    demand := fun i => (s.rm.pool.need_add_held_grant t v i).trans (h.demand i)
    requests := ?_, requests_nonneg := ?_, requests_le := ?_, fresh := ?_ } <;>
    intro i <;> by_cases hi : i = t
  · subst hi; simp [allocate, Local.pending]
  · simpa [allocate, hi] using h.requests i
  · subst hi; simp [allocate]
  · simpa [allocate, hi] using h.requests_nonneg i
  · subst hi; simpa [allocate] using le
  · simpa [allocate, hi] using h.requests_le i
  · subst hi; simp
  · simpa [allocate, hi] using h.fresh i

/-- Releasing `v` is the grant of `-v`. -/
theorem Inv.of_release (h : Inv handle da ex s) {t : Fin N} {v : Vec M}
    (run : s.threads t = .running) (hv : 0 ≤ v) (le : v ≤ s.rm.allocation t) :
    Inv handle da ex { s with
      rm := { s.rm with
        available := s.rm.available + v
        allocation := Function.update s.rm.allocation t (s.rm.allocation t - v)
        need := Function.update s.rm.need t (s.rm.need t + v) }
      threads := fun i => (s.threads i).signal } := by
  have htotal := s.rm.pool.total_grant t (-v)
  simp only [Pool.grant, pool, sub_neg_eq_add, ← sub_eq_add_neg] at htotal
  refine { h with
    total := htotal.trans h.total
    available_nonneg := add_nonneg h.available_nonneg hv
    allocation_nonneg := ?_
    demand := ?_
    requests := fun i => by simpa using h.requests i
    requests_le := ?_
    fresh := ?_ } <;> intro i <;> by_cases hi : i = t
  · subst hi; simpa using sub_nonneg.mpr le
  · simpa [hi] using h.allocation_nonneg i
  · subst hi; simpa using h.demand i
  · simpa [hi] using h.demand i
  · subst hi; simpa using (h.requests_le i).trans (le_add_of_nonneg_right hv)
  · simpa [hi] using h.requests_le i
  · subst hi
    intro hr
    -- a thread that has not requested holds nothing, so it releases nothing
    obtain ⟨-, hold⟩ := h.fresh i hr
    obtain rfl : v = 0 := le_antisymm (hold ▸ le) hv
    simp [run, hold, Local.signal]
  · intro hr
    obtain ⟨hrun, hold⟩ := h.fresh i hr
    simp [hi, hrun, hold, Local.signal]

theorem Inv.of_effect (h : Inv handle da ex s) (hda : da = 0 ∨ da = 1) (e : Effect s s') :
    Inv handle da ex s' := by
  cases e with
  | reject first early => exact h.of_reject first early
  | claim _ early nonneg le => exact h.of_claim early nonneg le
  | wait _ nonneg le _ => exact h.of_wait nonneg le
  | grant _ nonneg le yes => exact h.of_grant hda nonneg le yes
  | release run nonneg le => exact h.of_release run nonneg le

end Sys

namespace Session

open Sys

variable {c : Session} {s : Sys c.N c.M}

theorem inv_init (hs : c.init s) : Inv c.handle c.avoid c.exist s := by
  obtain ⟨g, rm, starts, hg, hinit, hp, rfl⟩ := hs
  obtain ⟨⟨hcount, -⟩, rfl⟩ := rmInit_eq_some hinit
  have hN : c.N ≤ MAXP := Int.toNat_le.mpr hcount
  refine
    { row := c.row_register hN hp rfl
      tcount := ?_
      avoid := rfl
      exist := rfl
      total := ?_
      available_nonneg := fun j => c.exist_nonneg j j.isLt
      allocation_nonneg := fun _ => le_rfl
      demand := fun _ => ?_
      demand_le := fun _ j => c.exist_nonneg j j.isLt
      requests := fun _ => rfl
      requests_nonneg := fun _ => le_rfl
      requests_le := fun _ => le_rfl
      fresh := fun _ _ => ⟨rfl, rfl⟩
      unclaimed := fun _ _ => rfl }
  · rw [register_tcount, hg, hp.length_eq]; simp
  · funext j
    simp [Pool.total, pool, exist]
  · rfl

theorem inv (ha : c.avoid = 0 ∨ c.avoid = 1) (hs : c.system.Reachable s) :
    Inv c.handle c.avoid c.exist s :=
  hs.invariant (fun _ => inv_init) fun _ _ _ h ⟨_, ha'⟩ => h.of_effect ha (h.effect ha')

/-- Nothing is lost or created, whatever the calls return: the tables balance for every
resource type and every thread. -/
theorem resources_conserved (ha : c.avoid = 0 ∨ c.avoid = 1) (hs : c.system.Reachable s)
    (j : Fin c.M) :
    s.rm.ExistingRes j = c.rExist j ∧
    s.rm.available j + ∑ i, s.rm.allocation i j = s.rm.ExistingRes j ∧ 0 ≤ s.rm.available j ∧
    ∀ i, 0 ≤ s.rm.allocation i j ∧ 0 ≤ s.rm.need i j ∧
      s.rm.need i j + s.rm.allocation i j = s.rm.maxDemand i j ∧
      s.rm.maxDemand i j ≤ s.rm.ExistingRes j ∧
      0 ≤ s.rm.requests i j ∧ s.rm.requests i j ≤ s.rm.need i j ∧
      ((s.threads i).isBlocked = false → s.rm.requests i = 0) := by
  have h := inv ha hs
  have htotal : s.rm.available j + ∑ i, s.rm.allocation i j = s.rm.ExistingRes j := by
    simpa [Pool.total, pool, ← h.exist, Finset.sum_apply] using congrFun h.total j
  refine ⟨congrFun h.exist j, htotal, h.available_nonneg j, fun i => ⟨h.allocation_nonneg i j,
    (h.requests_nonneg i j).trans (h.requests_le i j), congrFun (h.demand i) j,
    h.exist ▸ h.demand_le i j, h.requests_nonneg i j, h.requests_le i j, fun hrun => ?_⟩⟩
  rw [h.requests i]
  cases ht : s.threads i with
  | running => rfl
  | blocked v b => simp [ht, Local.isBlocked] at hrun

theorem resources_conserved_appEnd :
    appEnd.rm.ExistingRes (0 : Fin 1) = 8 ∧
    appEnd.rm.available (0 : Fin 1) + ∑ i, appEnd.rm.allocation i (0 : Fin 1) =
      appEnd.rm.ExistingRes (0 : Fin 1) ∧ 0 ≤ appEnd.rm.available (0 : Fin 1) ∧
    ∀ i, 0 ≤ appEnd.rm.allocation i (0 : Fin 1) ∧ 0 ≤ appEnd.rm.need i (0 : Fin 1) ∧
      appEnd.rm.need i (0 : Fin 1) + appEnd.rm.allocation i (0 : Fin 1) =
        appEnd.rm.maxDemand i (0 : Fin 1) ∧
      appEnd.rm.maxDemand i (0 : Fin 1) ≤ appEnd.rm.ExistingRes (0 : Fin 1) ∧
      0 ≤ appEnd.rm.requests i (0 : Fin 1) ∧
      appEnd.rm.requests i (0 : Fin 1) ≤ appEnd.rm.need i (0 : Fin 1) ∧
      ((appEnd.threads i).isBlocked = false → appEnd.rm.requests i = 0) :=
  resources_conserved (.inl rfl) reachable_appEnd (0 : Fin 1)

end Session

end Cs342.ResourceManager
