import Mathlib.Algebra.Order.Group.Int
import Mathlib.Algebra.Order.Pi
import Cs342.ResourceManager.Manager

/-!
# What the functions of the resource manager decide

One specification for each function, in terms of the pool of resources that the
tables describe. The safety check leaves no trace and decides safety of the pool
after the tentative grant; the detector counts what the reduction of the pending
requests leaves over. Later modules use these and never unfold the functions.
-/

namespace Cs342.ResourceManager

open Library

namespace Manager

variable {N M : ℕ}

/-- The tables as a pool in which each thread still needs its `need` row. -/
def pool (s : Manager N M) : Pool (Fin N) (Vec M) := ⟨s.available, s.allocation, s.need⟩

/-- The tables as a pool in which each thread needs its pending request. -/
def requestPool (s : Manager N M) : Pool (Fin N) (Vec M) := ⟨s.available, s.allocation, s.requests⟩

theorem isAvailable_iff (s : Manager N M) (request : Vec M) :
    s.isAvailable request = true ↔ request ≤ s.available :=
  arrLessThan_iff request s.available

/-- The tentative allocation is undone completely. -/
@[simp] theorem isStateSafe_snd (s : Manager N M) (tid : Fin N) (request : Vec M) :
    (s.isStateSafe tid request).2 = s := by
  simp [isStateSafe]

/-- The check answers whether the state after the grant has an order that serves every
thread. -/
theorem isStateSafe_fst (s : Manager N M) (tid : Fin N) (request : Vec M)
    (h0 : ∀ i, 0 ≤ (s.pool.grant tid request).held i) :
    (s.isStateSafe tid request).1 = true ↔ (s.pool.grant tid request).Safe := by
  rw [← (firstPicker (s.pool.grant tid request).need).finish_all_iff_safe h0]
  simp [isStateSafe, Pool.grant, pool]

theorem held_grant_nonneg_of_add {s : Manager N M} (h0 : ∀ i, 0 ≤ s.allocation i) {tid : Fin N}
    {request : Vec M} (hr : 0 ≤ s.allocation tid + request) (i : Fin N) :
    0 ≤ (s.pool.grant tid request).held i := by
  by_cases h : i = tid
  · subst h; simpa [Pool.grant, pool] using hr
  · simpa [Pool.grant, pool, h] using h0 i

theorem held_grant_nonneg {s : Manager N M} (h0 : ∀ i, 0 ≤ s.allocation i) {tid : Fin N}
    {request : Vec M} (hr : 0 ≤ request) (i : Fin N) :
    0 ≤ (s.pool.grant tid request).held i :=
  held_grant_nonneg_of_add h0 (add_nonneg (h0 tid) hr) i

/-- A request leaves the waiting loops when it fits what is available and, with avoidance,
granting it keeps the pool safe. -/
def Grantable (s : Manager N M) (tid : Fin N) (request : Vec M) : Prop :=
  (s.DA = 0 → request ≤ s.available) ∧
    (s.DA = 1 → (s.pool.grant tid request).Safe ∧ request ≤ s.available)

@[simp] theorem mustWait_snd (s : Manager N M) (tid : Fin N) (request : Vec M) :
    (s.mustWait tid request).2 = s := by
  unfold mustWait
  split_ifs <;> simp

theorem mustWait_fst_eq (s : Manager N M) (t : Fin N) (v : Vec M) :
    (s.mustWait t v).1 = (s.DA == 0 && !s.isAvailable v ||
      s.DA == 1 && (!(s.isStateSafe t v).1 || !s.isAvailable v)) := by
  by_cases hz : s.DA = 0
  · cases hav : s.isAvailable v <;> simp [mustWait, hz, hav]
  · by_cases ho : s.DA = 1
    · simp [mustWait, ho]
    · simp [mustWait, hz, ho]

/-- The pending request does not matter to the waiting loops. -/
theorem mustWait_requests (s : Manager N M) (requests : Fin N → Vec M) (t : Fin N) (v : Vec M) :
    ({ s with requests := requests }.mustWait t v).1 = (s.mustWait t v).1 := by
  rw [mustWait_fst_eq, mustWait_fst_eq]
  rfl

theorem mustWait_fst (s : Manager N M) (tid : Fin N) (request : Vec M)
    (h0 : ∀ i, 0 ≤ (s.pool.grant tid request).held i) :
    (s.mustWait tid request).1 = false ↔ s.Grantable tid request := by
  have hsafe := s.isStateSafe_fst tid request h0
  have havail := s.isAvailable_iff request
  by_cases hz : s.DA = 0
  · cases ha : s.isAvailable request <;> simp [mustWait, Grantable, hz, ha, ← havail]
  · by_cases ho : s.DA = 1
    · simp [mustWait, Grantable, ho, ← havail, ← hsafe]
    · simp [mustWait, Grantable, hz, ho]

theorem tryGrant_of_grantable {s : Manager N M} {tid : Fin N} {request : Vec M}
    (h0 : ∀ i, 0 ≤ (s.pool.grant tid request).held i) (h : s.Grantable tid request) :
    s.tryGrant tid request = (.granted, s.allocate tid request) := by
  have hw := (s.mustWait_fst tid request h0).mpr h
  have hs := s.mustWait_snd tid request
  unfold tryGrant
  split
  · next heq => simp [heq] at hw
  · next heq => simp [heq] at hs; rw [hs]

theorem tryGrant_of_not_grantable {s : Manager N M} {tid : Fin N} {request : Vec M}
    (h0 : ∀ i, 0 ≤ (s.pool.grant tid request).held i) (h : ¬ s.Grantable tid request) :
    s.tryGrant tid request = (.waiting, s) := by
  have hw : (s.mustWait tid request).1 = true := by
    rw [← Bool.not_eq_false, s.mustWait_fst tid request h0]
    exact h
  have hs := s.mustWait_snd tid request
  unfold tryGrant
  split
  · next heq => simp [heq] at hs; rw [hs]
  · next heq => simp [heq] at hw

/-- An allocation is a grant of the pool. -/
@[simp] theorem pool_allocate (s : Manager N M) (tid : Fin N) (request : Vec M) :
    (s.allocate tid request).pool = s.pool.grant tid request := rfl

/-- The detector counts the threads that the reduction of the pending requests leaves
unfinished. -/
theorem rmDetection_eq (s : Manager N M) (ht : s.tcount ≠ 0) :
    s.rmDetection = (Finset.univ.filter fun i =>
      (firstPicker s.requests).finish s.allocation s.available i = false).card := by
  simp only [rmDetection, ht, if_false, List.countP_eq_length_filter, Fin.univ_def, Finset.filter,
    Multiset.filter_coe, Finset.card_mk, Multiset.coe_card]
  congr 3
  funext i
  cases (firstPicker s.requests).finish s.allocation s.available i <;> rfl

/-! ## The safety check on its own -/

/-- The outer loop of the check, with the tentative allocation in place. -/
def safetyLoop (s : Manager N M) (tid : Fin N) (request : Vec M) : Loop (Vec M × (Fin N → Bool)) :=
  (firstPicker (Function.update s.need tid (s.need tid - request))).reduction
    (Function.update s.allocation tid (s.allocation tid + request))

/-- The check decides whether some order serves all threads. -/
theorem isStateSafe_order_iff (s : Manager N M) (tid : Fin N) (request : Vec M)
    (h0 : ∀ i, 0 ≤ s.allocation i) (hr : 0 ≤ s.allocation tid + request) :
    (s.isStateSafe tid request).1 = true ↔ ∃ order : List (Fin N), order.Nodup ∧
      (∀ i, i ∈ order) ∧ ∀ pre i post, order = pre ++ i :: post →
        Function.update s.need tid (s.need tid - request) i ≤ s.available - request +
          (pre.map (Function.update s.allocation tid (s.allocation tid + request))).sum := by
  rw [s.isStateSafe_fst tid request (held_grant_nonneg_of_add h0 hr)]
  simp only [Pool.Safe, Pool.served_iff]
  rfl

/-- Of what may be granted whole any part may be granted. -/
theorem part_of_request_granted (s : Manager N M) (tid : Fin N) {request part : Vec M}
    (h0 : ∀ i, 0 ≤ s.allocation i) (hpart : 0 ≤ part) (hle : part ≤ request)
    (havailable : s.isAvailable request = true) (hsafe : (s.isStateSafe tid request).1 = true) :
    s.isAvailable part = true ∧ (s.isStateSafe tid part).1 = true := by
  have hheld {r : Vec M} (hr : 0 ≤ r) (i : Fin N) : 0 ≤ (s.pool.grant tid r).held i :=
    held_grant_nonneg h0 hr i
  rw [isAvailable_iff] at havailable ⊢
  rw [s.isStateSafe_fst tid request (hheld (hpart.trans hle))] at hsafe
  rw [s.isStateSafe_fst tid part (hheld hpart)]
  refine ⟨hle.trans havailable, hsafe.antitone ?_ (hheld hpart) (fun i => ?_) fun i => ?_⟩
  · rw [Pool.total_grant, Pool.total_grant]
  · by_cases h : i = tid
    · subst h
      simpa [Pool.grant] using hle
    · simp [Pool.grant, h]
  · rw [Pool.need_add_held_grant, Pool.need_add_held_grant]

end Manager

end Cs342.ResourceManager
