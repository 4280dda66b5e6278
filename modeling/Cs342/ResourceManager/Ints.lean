import Mathlib.Tactic.MkIffOfInductiveProp
import Cs342.Library.Bytes
import Cs342.ResourceManager.Safety

/-!
# The tables as C ints

Every sum and difference of `rm.c` is stored in an `int`. In a session nothing leaves its
range, but the calls as such take any vectors, and the safety check any state. Here each
result is narrowed. A call whose results fit does what it does in the integers, and with
it the theorems about the integers are theorems about the program.
-/

namespace Cs342.ResourceManager

open Library

namespace Vec

variable {M : ℕ} {a b : Vec M}

/-- An array of `int`s. -/
def Ints (a : Vec M) : Prop := ∀ i, IsInt (a i)

instance (a : Vec M) : Decidable (Ints a) := inferInstanceAs (Decidable (∀ i, IsInt (a i)))

/-- `a[i] + b[i]` for each `i`, stored in an `int`. -/
def plusInt (a b : Vec M) : Vec M := fun i => toInt (a i + b i)

/-- `a[i] - b[i]` for each `i`, stored in an `int`. -/
def minusInt (a b : Vec M) : Vec M := fun i => toInt (a i - b i)

theorem plusInt_eq (h : Ints (a + b)) : plusInt a b = a + b := funext fun i => (h i).toInt_eq

theorem minusInt_eq (h : Ints (a - b)) : minusInt a b = a - b := funext fun i => (h i).toInt_eq

/-- What lies between two arrays of `int`s is one. -/
theorem Ints.of_le {c : Vec M} (ha : Ints a) (hc : Ints c) (hab : a ≤ b) (hbc : b ≤ c) :
    Ints b := fun i => ⟨(ha i).1.trans (hab i), (hbc i).trans_lt (hc i).2⟩

end Vec

open Vec

namespace Manager

variable {N M : ℕ}

/-! ## The functions -/

/-- The outer loop of the check, with the tentative allocation in place. -/
def safetyLoopInt (s : Manager N M) (tid : Fin N) (request : Vec M) :
    Loop (Vec M × (Fin N → Bool)) :=
  @Picker.reduction _ _ _ _ ⟨plusInt⟩ _ _
    (firstPicker (Function.update s.need tid (minusInt (s.need tid) request)))
    (Function.update s.allocation tid (plusInt (s.allocation tid) request))

def isStateSafeInt (s : Manager N M) (tid : Fin N) (request : Vec M) : Bool × Manager N M :=
  let work := minusInt s.available request
  let finish := ((s.safetyLoopInt tid request).run (work, fun _ => false)).2
  let s := { s with need := Function.update s.need tid (minusInt (s.need tid) request) }
  let s := { s with
    allocation := Function.update s.allocation tid (plusInt (s.allocation tid) request) }
  let ret := (List.finRange N).all finish
  let s := { s with need := Function.update s.need tid (plusInt (s.need tid) request) }
  let s := { s with
    allocation := Function.update s.allocation tid (minusInt (s.allocation tid) request) }
  (ret, s)

def mustWaitInt (s : Manager N M) (tid : Fin N) (request : Vec M) : Bool × Manager N M :=
  if s.DA == 0 && !s.isAvailable request then (true, s)
  else if s.DA == 1 then
    let (safe, s) := s.isStateSafeInt tid request
    (!safe || !s.isAvailable request, s)
  else (false, s)

def allocateInt (s : Manager N M) (tid : Fin N) (request : Vec M) : Manager N M :=
  { s with
    available := minusInt s.available request
    allocation := Function.update s.allocation tid (plusInt (s.allocation tid) request)
    need := Function.update s.need tid (minusInt (s.need tid) request)
    requests := Function.update s.requests tid 0 }

def tryGrantInt (s : Manager N M) (tid : Fin N) (request : Vec M) : Verdict × Manager N M :=
  match s.mustWaitInt tid request with
  | (true, s) => (.waiting, s)
  | (false, s) => (.granted, s.allocateInt tid request)

def rmRequestInt (s : Manager N M) (tid : Fin N) (request : Vec M) : Verdict × Manager N M :=
  if anyAbove request (s.need tid) then (.rejected, s)
  else if anyAbove request s.ExistingRes then (.rejected, s)
  else { s with requests := Function.update s.requests tid request }.tryGrantInt tid request

def rmReleaseInt (s : Manager N M) (tid : Fin N) (release : Vec M) :
    ℤ × (Fin N → Bool) × Manager N M :=
  if anyAbove release (s.allocation tid) then (-1, fun _ => false, s)
  else (0, fun _ => true, { s with
    available := plusInt s.available release
    allocation := Function.update s.allocation tid (minusInt (s.allocation tid) release)
    need := Function.update s.need tid (plusInt (s.need tid) release) })

/-! ## What fits -/

/-- The rows that the check edits hold `int`s, before and with the tentative allocation, and so
does `work` in every round of its loop. -/
@[mk_iff] structure CheckFits (s : Manager N M) (tid : Fin N) (request : Vec M) : Prop where
  need : Ints (s.need tid)
  allocation : Ints (s.allocation tid)
  less : Ints (s.need tid - request)
  more : Ints (s.allocation tid + request)
  work : ∀ n ≤ N, Ints ((s.safetyLoop tid request).runFor n
    (s.available - request, fun _ => false)).1

/-- The rows after an allocation hold `int`s. -/
@[mk_iff] structure GrantFits (s : Manager N M) (tid : Fin N) (request : Vec M) : Prop where
  available : Ints (s.available - request)
  allocation : Ints (s.allocation tid + request)
  need : Ints (s.need tid - request)

/-- What the waiting loops and the allocation after them compute fits. -/
@[mk_iff] structure RequestFits (s : Manager N M) (tid : Fin N) (request : Vec M) : Prop where
  check : s.DA = 1 → s.CheckFits tid request
  grant : (s.mustWait tid request).1 = false → s.GrantFits tid request

/-- The rows after a release hold `int`s. -/
@[mk_iff] structure ReleaseFits (s : Manager N M) (tid : Fin N) (release : Vec M) : Prop where
  available : Ints (s.available + release)
  allocation : Ints (s.allocation tid - release)
  need : Ints (s.need tid + release)

variable {s : Manager N M} {tid : Fin N} {request release : Vec M}

instance : Decidable (s.CheckFits tid request) :=
  decidable_of_iff _ (checkFits_iff s tid request).symm

instance : Decidable (s.GrantFits tid request) :=
  decidable_of_iff _ (grantFits_iff s tid request).symm

instance : Decidable (s.RequestFits tid request) :=
  decidable_of_iff _ (requestFits_iff s tid request).symm

instance : Decidable (s.ReleaseFits tid release) :=
  decidable_of_iff _ (releaseFits_iff s tid release).symm

/-! ## Nothing wraps then -/

/-- The loop comes to the same, round by round. -/
theorem CheckFits.safetyLoopInt (h : s.CheckFits tid request) :
    (s.safetyLoopInt tid request).run (minusInt s.available request, fun _ => false) =
      (s.safetyLoop tid request).run (s.available - request, fun _ => false) := by
  rw [minusInt_eq (h.work 0 (Nat.zero_le _)), Loop.run, Loop.run, Manager.safetyLoopInt, safetyLoop,
    minusInt_eq h.less, plusInt_eq h.more, Picker.reduction_variant_start,
    Picker.reduction_variant_start, Fintype.card_fin]
  refine Loop.runFor_congr (P := fun u => Ints u.1) (fun u hu => ?_) h.work
  cases hx : (firstPicker (Function.update s.need tid (s.need tid - request))).pick u.1 u.2 with
  | none => simp only [Picker.reduction, hx]
  | some x =>
    simp only [Picker.reduction, hx] at hu ⊢
    exact congrArg (fun work => some (work, Function.update u.2 x true)) (plusInt_eq (hu _ rfl))

/-- The check answers what it answers in the integers, and undoes its edits. -/
theorem CheckFits.isStateSafeInt (h : s.CheckFits tid request) :
    s.isStateSafeInt tid request = s.isStateSafe tid request := by
  have hundone : s.isStateSafe tid request = ((s.isStateSafe tid request).1, s) :=
    Prod.ext rfl (s.isStateSafe_snd tid request)
  have hneed : plusInt (s.need tid - request) request = s.need tid := by
    rw [plusInt_eq (by simpa using h.need), sub_add_cancel]
  have hallocation : minusInt (s.allocation tid + request) request = s.allocation tid := by
    rw [minusInt_eq (by simpa using h.allocation), add_sub_cancel_right]
  rw [hundone]
  refine Prod.ext ?_ ?_
  · simp only [Manager.isStateSafeInt, h.safetyLoopInt]
    rfl
  · simp [Manager.isStateSafeInt, minusInt_eq h.less, plusInt_eq h.more, hneed, hallocation]

theorem RequestFits.mustWaitInt (h : s.RequestFits tid request) :
    s.mustWaitInt tid request = s.mustWait tid request := by
  by_cases hone : s.DA = 1
  · simp only [Manager.mustWaitInt, mustWait, (h.check hone).isStateSafeInt]
  · simp [Manager.mustWaitInt, mustWait, hone]

theorem GrantFits.allocateInt (h : s.GrantFits tid request) :
    s.allocateInt tid request = s.allocate tid request := by
  rw [Manager.allocateInt, allocate, minusInt_eq h.available, plusInt_eq h.allocation,
    minusInt_eq h.need]

/-- The waiting loops and the allocation do what they do in the integers. -/
theorem RequestFits.tryGrantInt (h : s.RequestFits tid request) :
    s.tryGrantInt tid request = s.tryGrant tid request := by
  have hsame := s.mustWait_snd tid request
  have hgrant := h.grant
  rw [Manager.tryGrantInt, tryGrant, h.mustWaitInt]
  generalize s.mustWait tid request = w at hsame hgrant ⊢
  obtain ⟨wait, rm⟩ := w
  obtain rfl : rm = s := hsame
  cases wait with
  | true => rfl
  | false => simp only [(hgrant rfl).allocateInt]

/-- The pending request is none of what has to fit. -/
theorem RequestFits.requests (h : s.RequestFits tid request) (requests : Fin N → Vec M) :
    RequestFits { s with requests := requests } tid request where
  check hone := ⟨(h.check hone).1, (h.check hone).2, (h.check hone).3, (h.check hone).4,
    (h.check hone).5⟩
  grant hpass := by
    have hgrant := h.grant (s.mustWait_requests requests tid request ▸ hpass)
    exact ⟨hgrant.1, hgrant.2, hgrant.3⟩

theorem rmRequestInt_eq
    (h : request ≤ s.need tid → request ≤ s.ExistingRes → s.RequestFits tid request) :
    s.rmRequestInt tid request = s.rmRequest tid request := by
  unfold rmRequestInt rmRequest
  split_ifs with hneed hexist
  · rfl
  · rfl
  · exact ((h (by simpa using hneed) (by simpa using hexist)).requests _).tryGrantInt

theorem rmReleaseInt_eq (h : request ≤ s.allocation tid → s.ReleaseFits tid request) :
    s.rmReleaseInt tid request = s.rmRelease tid request := by
  unfold rmReleaseInt rmRelease
  split_ifs with hhold
  · rfl
  · obtain ⟨havailable, hallocation, hneed⟩ := h (by simpa using hhold)
    rw [plusInt_eq havailable, minusInt_eq hallocation, plusInt_eq hneed]

/-! ## The safety check of any state -/

/-- The rows that the check edits hold `int`s, before and with the tentative allocation, and so
do what is available then and what there is of each resource type altogether. -/
@[mk_iff] structure SumsFit (s : Manager N M) (tid : Fin N) (request : Vec M) : Prop where
  need : Ints (s.need tid)
  allocation : Ints (s.allocation tid)
  less : Ints (s.need tid - request)
  more : Ints (s.allocation tid + request)
  free : Ints (s.available - request)
  total : Ints s.pool.total

instance : Decidable (s.SumsFit tid request) := decidable_of_iff _ (sumsFit_iff s tid request).symm

/-- In every round `work` lies between what is available and what there is altogether. -/
theorem SumsFit.checkFits (h : s.SumsFit tid request) (h0 : ∀ i, 0 ≤ s.allocation i)
    (hr : 0 ≤ s.allocation tid + request) : s.CheckFits tid request where
  need := h.need
  allocation := h.allocation
  less := h.less
  more := h.more
  work n _ := by
    set p := s.pool.grant tid request with hp
    have hreduced : Picker.Reduced p
        ((s.safetyLoop tid request).runFor n (s.available - request, fun _ => false)) :=
      Loop.runFor_induct _ Picker.reduced_start (fun _ _ hu hb => hu.step (firstPicker p.need) hb) n
    obtain ⟨hfree, htotal⟩ := hreduced.bounds (held_grant_nonneg_of_add h0 hr)
    rw [hp, Pool.total_grant] at htotal
    exact h.free.of_le h.total hfree htotal

/-- As long as its sums fit, the check decides whether some order serves all threads, its outer
loop ends after at most one round more than there are threads, and the tables are afterwards
what they were. -/
theorem isStateSafeInt_exact (s : Manager N M) (tid : Fin N) (request : Vec M)
    (h0 : ∀ i, 0 ≤ s.allocation i) (hr : 0 ≤ s.allocation tid + request)
    (hfits : s.SumsFit tid request) :
    let need := Function.update s.need tid (s.need tid - request)
    let allocation := Function.update s.allocation tid (s.allocation tid + request)
    ((s.isStateSafeInt tid request).1 = true ↔ ∃ order : List (Fin N), order.Nodup ∧
      (∀ i, i ∈ order) ∧ ∀ pre i post, order = pre ++ i :: post →
        need i ≤ s.available - request + (pre.map allocation).sum) ∧
    (∃ n ≤ N + 1, ∃ work finish,
      (s.safetyLoopInt tid request).Rounds (minusInt s.available request, fun _ => false) n
          (work, finish) ∧
        (s.isStateSafeInt tid request).1 = (List.finRange N).all finish) ∧
    (s.isStateSafeInt tid request).2 = s := by
  intro need allocation
  have hcheck := hfits.checkFits h0 hr
  refine ⟨?_, ?_, ?_⟩
  · rw [hcheck.isStateSafeInt]
    exact s.isStateSafe_order_iff tid request h0 hr
  · obtain ⟨n, hn, hrounds⟩ := (s.safetyLoopInt tid request).run_rounds
      (minusInt s.available request, fun _ => false)
    refine ⟨n, hn.trans ?_, _, _, hrounds, rfl⟩
    simp [Manager.safetyLoopInt]
  · rw [hcheck.isStateSafeInt, isStateSafe_snd]

/-- Two threads with one resource type: one unit is free, and thread 0 holds the other. -/
def twoUnits : Manager 2 1 where
  tcount := 2
  tids _ := 0
  DA := 1
  ExistingRes _ := 2
  maxDemand _ _ := 2
  allocation i _ := if i.val = 0 then 1 else 0
  need i _ := if i.val = 0 then 1 else 2
  requests _ _ := 0
  available _ := 1

theorem twoUnits_allocation_nonneg (i : Fin 2) : 0 ≤ twoUnits.allocation i := by
  intro j
  simp only [twoUnits]
  split <;> simp

theorem isStateSafeInt_exact_twoUnits :
    ((twoUnits.isStateSafeInt 0 fun _ => 1).1 = true ↔ ∃ order : List (Fin 2), order.Nodup ∧
      (∀ i, i ∈ order) ∧ ∀ pre i post, order = pre ++ i :: post →
        Function.update twoUnits.need 0 (twoUnits.need 0 - fun _ => 1) i ≤
          (twoUnits.available - fun _ => 1) +
            (pre.map (Function.update twoUnits.allocation 0
              (twoUnits.allocation 0 + fun _ => 1))).sum) ∧
    (∃ n ≤ 3, ∃ work finish,
      (twoUnits.safetyLoopInt 0 fun _ => 1).Rounds
          (minusInt twoUnits.available fun _ => 1, fun _ => false) n (work, finish) ∧
        (twoUnits.isStateSafeInt 0 fun _ => 1).1 = (List.finRange 2).all finish) ∧
    (twoUnits.isStateSafeInt 0 fun _ => 1).2 = twoUnits :=
  isStateSafeInt_exact twoUnits 0 (fun _ => 1) twoUnits_allocation_nonneg
    (fun j => add_nonneg (twoUnits_allocation_nonneg 0 j) zero_le_one) (by decide +kernel)

/-- All units an `int` can count are available, and thread 0 holds one more. -/
def brimful (needs : Fin 2 → ℤ) : Manager 2 1 where
  tcount := 2
  tids _ := 0
  DA := 1
  ExistingRes _ := 2147483647
  maxDemand i _ := needs i
  allocation i _ := if i.val = 0 then 1 else 0
  need i _ := needs i
  requests _ _ := 0
  available _ := 2147483647

theorem brimful_allocation_nonneg (needs : Fin 2 → ℤ) (i : Fin 2) :
    0 ≤ (brimful needs).allocation i := by
  intro j
  simp only [brimful]
  split <;> simp

/-- What thread 0 gives back makes `work` negative, and thread 1, which needs five of these
units, is passed over. -/
theorem isStateSafeInt_wraps :
    let s := brimful fun i => if i.val = 0 then 0 else 5
    (∀ i, Ints (s.need i) ∧ Ints (s.allocation i)) ∧ Ints s.available ∧
      (∀ i, 0 ≤ s.allocation i) ∧ 0 ≤ s.allocation 0 + 0 ∧
      ¬ ((s.isStateSafeInt 0 0).1 = true ↔ ∃ order : List (Fin 2), order.Nodup ∧
        (∀ i, i ∈ order) ∧ ∀ pre i post, order = pre ++ i :: post →
          Function.update s.need 0 (s.need 0 - 0) i ≤ s.available - 0 +
            (pre.map (Function.update s.allocation 0 (s.allocation 0 + 0))).sum) := by
  intro s
  have hnonneg : ∀ i, 0 ≤ s.allocation i := brimful_allocation_nonneg _
  have hsum : 0 ≤ s.allocation 0 + 0 := by
    rw [add_zero]
    exact hnonneg 0
  refine ⟨by decide +kernel, by decide +kernel, hnonneg, hsum, ?_⟩
  rw [← s.isStateSafe_order_iff 0 0 hnonneg hsum]
  decide +kernel

/-- Of what may be allocated everything fits if the tables do. -/
theorem SumsFit.of_le (h0 : ∀ i, 0 ≤ s.allocation i) (hneed : Ints (s.need tid))
    (htotal : Ints s.pool.total) (hle : request ≤ s.available) (hreq : request ≤ s.need tid)
    {r : Vec M} (hr : 0 ≤ r) (hrle : r ≤ request) : s.SumsFit tid r := by
  have hzero : Ints (0 : Vec M) := fun _ => (by decide : IsInt 0)
  have hfree : 0 ≤ s.available - r := sub_nonneg.mpr (hrle.trans hle)
  have hhold : s.available + s.allocation tid ≤ s.pool.total :=
    add_le_add le_rfl (Finset.single_le_sum (fun i _ => h0 i) (Finset.mem_univ tid))
  have havailable : s.available ≤ s.pool.total := (le_add_of_nonneg_right (h0 tid)).trans hhold
  refine ⟨hneed, ?_, ?_, ?_, ?_, htotal⟩
  · exact hzero.of_le htotal (h0 tid)
      ((le_add_of_nonneg_left (hr.trans (hrle.trans hle))).trans hhold)
  · exact hzero.of_le hneed (sub_nonneg.mpr (hrle.trans hreq)) (sub_le_self _ hr)
  · refine hzero.of_le htotal (add_nonneg (h0 tid) hr) (le_trans ?_ hhold)
    rw [add_comm]
    exact add_le_add (hrle.trans hle) le_rfl
  · exact hzero.of_le htotal hfree ((sub_le_self _ hr).trans havailable)

/-- As long as its sums fit, of what is granted whole any part is granted. -/
theorem part_of_request_passes (s : Manager N M) (tid : Fin N) {request part : Vec M}
    (h0 : ∀ i, 0 ≤ s.allocation i) (hpart : 0 ≤ part) (hle : part ≤ request)
    (hneed : request ≤ s.need tid) (hints : Ints (s.need tid)) (htotal : Ints s.pool.total)
    (havailable : s.isAvailable request = true)
    (hsafe : (s.isStateSafeInt tid request).1 = true) :
    s.isAvailable part = true ∧ (s.isStateSafeInt tid part).1 = true := by
  have hfits {r : Vec M} (hr : 0 ≤ r) (hrle : r ≤ request) : s.SumsFit tid r :=
    .of_le h0 hints htotal ((s.isAvailable_iff request).mp havailable) hneed hr hrle
  have hcheck {r : Vec M} (hr : 0 ≤ r) (hrle : r ≤ request) :=
    (hfits hr hrle).checkFits h0 (add_nonneg (h0 tid) hr)
  rw [(hcheck (hpart.trans hle) le_rfl).isStateSafeInt] at hsafe
  rw [(hcheck hpart hle).isStateSafeInt]
  exact s.part_of_request_granted tid h0 hpart hle havailable hsafe

theorem part_of_request_passes_twoUnits :
    twoUnits.isAvailable 0 = true ∧ (twoUnits.isStateSafeInt 0 0).1 = true :=
  @part_of_request_passes 2 1 twoUnits 0 (fun _ => 1) 0 twoUnits_allocation_nonneg le_rfl
    (fun _ => zero_le_one) (fun _ => le_refl (1 : ℤ)) (by decide +kernel) (by decide +kernel)
    (by decide) (by decide +kernel)

/-- Thread 1 is granted all units at once, but not none of them: then `work` is negative before
its turn comes. -/
theorem part_of_request_wraps :
    let s := brimful fun i => if i.val = 0 then 1 else 2147483647
    let all : Vec 1 := fun _ => 2147483647
    (∀ i, Ints (s.need i) ∧ Ints (s.allocation i)) ∧ Ints s.available ∧ Ints all ∧
      (∀ i, 0 ≤ s.allocation i) ∧ (0 : Vec 1) ≤ all ∧ all ≤ s.need (Fin.last 1) ∧
      (s.isAvailable all = true ∧ (s.isStateSafeInt (Fin.last 1) all).1 = true) ∧
      ¬ (s.isAvailable 0 = true ∧ (s.isStateSafeInt (Fin.last 1) 0).1 = true) :=
  ⟨by decide +kernel, by decide +kernel, by decide +kernel, brimful_allocation_nonneg _,
    fun _ => (by decide : (0 : ℤ) ≤ 2147483647), fun _ => le_refl (2147483647 : ℤ),
    by decide +kernel, by decide +kernel⟩

end Manager

end Cs342.ResourceManager
