import Mathlib.Algebra.BigOperators.Group.Finset.Piecewise
import Mathlib.Algebra.Order.BigOperators.Group.Finset
import Mathlib.Data.Fintype.BigOperators
import Mathlib.Tactic.Abel
import Cs342.Library.Loop

/-!
# Reducing a pool of shared resources

Parties hold parts of a pool and each still has a need. A party can be served
when its need fits what is free; it then returns what it holds. An order that
serves every party makes the pool safe; a set of parties none of which can be
served by what the others would return is stuck.

The two notions are dual, and the greedy reduction decides them whichever
candidate it picks. The dual form mentions only the pool's total, what each party
holds and what each could come to hold, so safety is antitone in the last two.
-/

namespace Cs342.Library

variable {ι V : Type*}

structure Pool (ι V : Type*) where
  free : V
  held : ι → V
  need : ι → V

namespace Pool

section Served

variable [Add V] [LE V]

/-- The parties of a list can be served one after another, from `w` on. -/
def Served (p : Pool ι V) : V → List ι → Prop
  | _, [] => True
  | w, i :: is => p.need i ≤ w ∧ p.Served (w + p.held i) is

/-- Some order of all parties serves every one of them. -/
def Safe (p : Pool ι V) : Prop :=
  ∃ order : List ι, order.Nodup ∧ (∀ i, i ∈ order) ∧ p.Served p.free order

end Served

variable [AddCommGroup V]

theorem served_append [LE V] (p : Pool ι V) (w : V) (l m : List ι) :
    p.Served w (l ++ m) ↔ p.Served w l ∧ p.Served (w + (l.map p.held).sum) m := by
  induction l generalizing w with
  | nil => simp [Served]
  | cons i is ih => simp [Served, ih, and_assoc, add_assoc]

/-- Every party of a served list is covered by what is free and what its
predecessors return. -/
theorem served_iff [LE V] (p : Pool ι V) (w : V) (l : List ι) :
    p.Served w l ↔ ∀ pre i post, l = pre ++ i :: post → p.need i ≤ w + (pre.map p.held).sum := by
  constructor
  · rintro h pre i post rfl
    exact (p.served_append w pre (i :: post)).mp h |>.2.1
  · intro h
    induction l generalizing w with
    | nil => trivial
    | cons i is ih =>
      refine ⟨by simpa using h [] i is rfl, ih _ fun pre j post hj => ?_⟩
      simpa [add_assoc] using h (i :: pre) j post (by simp [hj])

/-- Move `r` from what is free to party `x`, and take it off the need of `x`. -/
def grant [DecidableEq ι] (p : Pool ι V) (x : ι) (r : V) : Pool ι V where
  free := p.free - r
  held := Function.update p.held x (p.held x + r)
  need := Function.update p.need x (p.need x - r)

/-- A grant leaves what each party could come to hold as it was. -/
@[simp] theorem need_add_held_grant [DecidableEq ι] (p : Pool ι V) (x : ι) (r : V) (i : ι) :
    (p.grant x r).need i + (p.grant x r).held i = p.need i + p.held i := by
  by_cases h : i = x
  · subst h; simp [grant]
  · simp [grant, h]

/-- Serving a list looks at the rows of its members only. -/
theorem Served.congr [LE V] {p q : Pool ι V} {w : V} {l : List ι} (h : p.Served w l)
    (hh : ∀ i ∈ l, q.held i = p.held i) (hn : ∀ i ∈ l, q.need i = p.need i) : q.Served w l := by
  induction l generalizing w with
  | nil => trivial
  | cons i is ih =>
    refine ⟨hn i (by simp) ▸ h.1, ?_⟩
    rw [hh i (by simp)]
    exact ih h.2 (fun j hj => hh j (by simp [hj])) fun j hj => hn j (by simp [hj])

variable [Fintype ι]

def total (p : Pool ι V) : V := p.free + ∑ i, p.held i

@[simp] theorem total_grant [DecidableEq ι] (p : Pool ι V) (x : ι) (r : V) :
    (p.grant x r).total = p.total := by
  simp only [total, grant, Finset.sum_update_of_mem (Finset.mem_univ x),
    ← Finset.add_sum_erase _ p.held (Finset.mem_univ x), Finset.erase_eq]
  abel

variable [DecidableEq ι]

/-- No party of `S` is covered by what is free and what the others hold. -/
def Stuck [LE V] (p : Pool ι V) (S : Finset ι) : Prop :=
  ∀ i ∈ S, ¬ p.need i ≤ p.free + ∑ j ∈ Sᶜ, p.held j

/-- Where the others hold nothing, only what is free counts. -/
theorem stuck_iff_of_idle [LE V] {p : Pool ι V} {S : Finset ι} (h : ∀ i ∉ S, p.held i = 0) :
    p.Stuck S ↔ ∀ i ∈ S, ¬ p.need i ≤ p.free := by
  have hsum : ∑ j ∈ Sᶜ, p.held j = 0 :=
    Finset.sum_eq_zero fun j hj => h j (Finset.mem_compl.mp hj)
  simp only [Stuck, hsum, add_zero]

variable [PartialOrder V] [IsOrderedAddMonoid V]

/-- A party of `S` is covered exactly when its need and what `S` holds fit the total. -/
theorem not_stuck_iff (p : Pool ι V) (S : Finset ι) :
    ¬ p.Stuck S ↔ ∃ i ∈ S, p.need i + ∑ j ∈ S, p.held j ≤ p.total := by
  have ht : p.total = p.free + ∑ j ∈ Sᶜ, p.held j + ∑ j ∈ S, p.held j := by
    rw [total, add_assoc, Finset.sum_compl_add_sum]
  simp only [Stuck, not_forall, not_not, exists_prop, ht, add_le_add_iff_right]

/-- Serving a list never reaches a member of a stuck set. -/
theorem Stuck.not_mem_of_served {p : Pool ι V} (h0 : ∀ i, 0 ≤ p.held i) {S : Finset ι}
    (hS : p.Stuck S) {l : List ι} (hl : l.Nodup) (hs : p.Served p.free l) {i : ι} (hi : i ∈ l) :
    i ∉ S := by
  induction l using List.reverseRecOn generalizing i with
  | nil => simp at hi
  | append_singleton l x ih =>
    obtain ⟨hl', hx⟩ := (p.served_append _ l [x]).mp hs
    have hnd : l.Nodup := hl.of_append_left
    have hout : ∀ j ∈ l, j ∉ S := fun j hj => ih hnd hl' hj
    rcases List.mem_append.mp hi with hi | hi
    · exact hout i hi
    · obtain rfl : i = x := by simpa using hi
      intro hiS
      apply hS i hiS
      -- the predecessors are all outside `S`, so they hold no more than all of `Sᶜ`
      calc p.need i ≤ p.free + (l.map p.held).sum := hx.1
        _ = p.free + ∑ j ∈ l.toFinset, p.held j := by rw [List.sum_toFinset _ hnd]
        _ ≤ p.free + ∑ j ∈ Sᶜ, p.held j := by
          refine add_le_add le_rfl (Finset.sum_le_sum_of_subset_of_nonneg ?_ fun j _ _ => h0 j)
          intro j hj
          exact Finset.mem_compl.mpr (hout j (List.mem_toFinset.mp hj))

/-- Whether a set is stuck depends on the total and on the set's own rows only. -/
theorem Stuck.congr {p q : Pool ι V} {S : Finset ι} (hS : p.Stuck S) (ht : q.total = p.total)
    (hh : ∀ i ∈ S, q.held i = p.held i) (hn : ∀ i ∈ S, q.need i = p.need i) : q.Stuck S := by
  by_contra hq
  obtain ⟨i, hi, hle⟩ := (q.not_stuck_iff S).mp hq
  rw [ht, hn i hi, Finset.sum_congr rfl hh] at hle
  exact (p.not_stuck_iff S).mpr ⟨i, hi, hle⟩ hS

/-- What a member of a stuck set needs is not free. -/
theorem Stuck.not_le_free {p : Pool ι V} (h0 : ∀ i, 0 ≤ p.held i) {S : Finset ι}
    (hS : p.Stuck S) {i : ι} (hi : i ∈ S) : ¬ p.need i ≤ p.free := fun hle =>
  hS i hi (hle.trans (le_add_of_nonneg_right (Finset.sum_nonneg fun j _ => h0 j)))

theorem Stuck.not_safe {p : Pool ι V} (h0 : ∀ i, 0 ≤ p.held i) {S : Finset ι}
    (hS : p.Stuck S) (hne : S.Nonempty) : ¬ p.Safe := by
  rintro ⟨order, hnd, hall, hs⟩
  obtain ⟨i, hi⟩ := hne
  exact hS.not_mem_of_served h0 hnd hs (hall i) hi

end Pool

/-! ## The greedy reduction -/

/-- A way to pick an unfinished party whose need is covered, whenever there is one. -/
structure Picker [LE V] (need : ι → V) where
  pick : V → (ι → Bool) → Option ι
  sound : ∀ {w f x}, pick w f = some x → f x = false ∧ need x ≤ w
  complete : ∀ {w f}, pick w f = none → ∀ i, f i = false → ¬ need i ≤ w

namespace Picker

section Reduction

variable [Fintype ι] [DecidableEq ι] [Add V] [LE V]

/-- Finish the picked party and return what it holds, until nobody can be picked. -/
def reduction {need : ι → V} (k : Picker need) (held : ι → V) : Loop (V × (ι → Bool)) where
  body s :=
    match k.pick s.1 s.2 with
    | none => none
    | some x => some (s.1 + held x, Function.update s.2 x true)
  variant s := (Finset.univ.filter fun i => s.2 i = false).card
  decreases := by
    rintro ⟨w, f⟩ t hb
    cases hx : k.pick w f with
    | none => simp [hx] at hb
    | some x =>
      obtain rfl : (w + held x, Function.update f x true) = t := by simpa [hx] using hb
      refine Finset.card_lt_card (Finset.ssubset_iff_of_subset ?_ |>.mpr ⟨x, ?_, ?_⟩)
      · intro i hi
        by_cases h : i = x <;> simp_all
      · simpa using (k.sound hx).1
      · simp

omit [Add V] in
@[simp] theorem reduction_variant_start {_ : Add V} {need : ι → V} (k : Picker need) (held : ι → V)
    (w : V) :
    (k.reduction held).variant (w, fun _ => false) = Fintype.card ι := by
  simp [reduction]

/-- The parties a reduction from `free` finishes. -/
def finish {need : ι → V} (k : Picker need) (held : ι → V) (free : V) : ι → Bool :=
  ((k.reduction held).run (free, fun _ => false)).2

end Reduction

variable [Fintype ι] [DecidableEq ι] [AddCommGroup V] [PartialOrder V]

/-- What every round of a reduction of `p` keeps: the finished parties, in the order
in which they were picked, form a served list that accounts for `w`. -/
def Reduced (p : Pool ι V) (s : V × (ι → Bool)) : Prop :=
  ∃ order : List ι, order.Nodup ∧ (∀ i, i ∈ order ↔ s.2 i = true) ∧
    p.Served p.free order ∧ s.1 = p.free + (order.map p.held).sum

variable {p : Pool ι V} (k : Picker p.need)

omit [Fintype ι] [DecidableEq ι] in
theorem reduced_start : Reduced p (p.free, fun _ => false) :=
  ⟨[], by simp, by simp, trivial, by simp⟩

theorem Reduced.step {s v : V × (ι → Bool)} (h : Reduced p s)
    (hb : (k.reduction p.held).body s = some v) : Reduced p v := by
  obtain ⟨w, f⟩ := s
  obtain ⟨order, hnd, hmem, hs, hw⟩ := h
  cases hx : k.pick w f with
  | none => simp [reduction, hx] at hb
  | some x =>
    obtain rfl : (w + p.held x, Function.update f x true) = v := by
      simpa [reduction, hx] using hb
    obtain ⟨hfx, hneed⟩ := k.sound hx
    have hxo : x ∉ order := fun h => Bool.eq_false_iff.mp hfx ((hmem x).mp h)
    obtain rfl : w = p.free + (order.map p.held).sum := hw
    refine ⟨order ++ [x], ?_, ?_, ?_, by simp [add_assoc]⟩
    · simpa using hnd.append (List.nodup_singleton x) (List.disjoint_singleton.mpr hxo)
    · intro i
      by_cases h : i = x
      · simp [h]
      · simpa [h] using hmem i
    · exact (p.served_append _ _ _).mpr ⟨hs, hneed, trivial⟩

theorem reduced_run : Reduced p ((k.reduction p.held).run (p.free, fun _ => false)) :=
  Loop.run_induct _ reduced_start fun _ _ h hb => h.step k hb

theorem finish_order :
    ∃ order : List ι, order.Nodup ∧ (∀ i, i ∈ order ↔ k.finish p.held p.free i = true) ∧
      p.Served p.free order :=
  let ⟨order, hnd, hmem, hs, _⟩ := k.reduced_run
  ⟨order, hnd, hmem, hs⟩

/-- What a reduction leaves unfinished is stuck. -/
theorem finish_stuck :
    p.Stuck (Finset.univ.filter fun i => k.finish p.held p.free i = false) := by
  intro i hi
  obtain ⟨order, hnd, hmem, -, hw⟩ := k.reduced_run
  have hbreak := (k.reduction p.held).body_run (p.free, fun _ => false)
  set s := (k.reduction p.held).run (p.free, fun _ => false)
  have hnone : k.pick s.1 s.2 = none := by
    cases hx : k.pick s.1 s.2 with
    | none => rfl
    | some x => simp [reduction, hx] at hbreak
  have hdone : (Finset.univ.filter fun i => k.finish p.held p.free i = false)ᶜ =
      order.toFinset := by
    ext j
    rw [Finset.mem_compl, Finset.mem_filter_univ, Bool.not_eq_false, List.mem_toFinset]
    exact (hmem j).symm
  rw [hdone, List.sum_toFinset _ hnd, ← hw]
  exact k.complete hnone i ((Finset.mem_filter_univ i).mp hi)

variable [IsOrderedAddMonoid V]

omit [DecidableEq ι] in
/-- In every round what is free lies between what was free and the total. -/
theorem Reduced.bounds {s : V × (ι → Bool)} (h : Reduced p s) (h0 : ∀ i, 0 ≤ p.held i) :
    p.free ≤ s.1 ∧ s.1 ≤ p.total := by
  classical
  obtain ⟨order, hnd, -, -, hw⟩ := h
  rw [hw, ← List.sum_toFinset _ hnd]
  refine ⟨le_add_of_nonneg_right (Finset.sum_nonneg fun i _ => h0 i), add_le_add le_rfl ?_⟩
  exact Finset.sum_le_sum_of_subset_of_nonneg (Finset.subset_univ _) fun i _ _ => h0 i

/-- The reduction finishes exactly the parties some served list reaches: which
candidate is picked first makes no difference. -/
theorem finish_iff (h0 : ∀ i, 0 ≤ p.held i) (i : ι) :
    k.finish p.held p.free i = true ↔
      ∃ order : List ι, order.Nodup ∧ p.Served p.free order ∧ i ∈ order := by
  constructor
  · intro hi
    obtain ⟨order, hnd, hmem, hs⟩ := k.finish_order
    exact ⟨order, hnd, hs, (hmem i).mpr hi⟩
  · rintro ⟨order, hnd, hs, hi⟩
    have := k.finish_stuck.not_mem_of_served h0 hnd hs hi
    simpa using this

/-- A reduction leaves over a stuck set all around which is covered at once. -/
theorem finish_eq_false_iff (h0 : ∀ i, 0 ≤ p.held i) {S : Finset ι} (hS : p.Stuck S)
    (hout : ∀ i ∉ S, p.need i ≤ p.free) (i : ι) :
    k.finish p.held p.free i = false ↔ i ∈ S := by
  constructor
  · intro hi
    by_contra hiS
    exact k.finish_stuck.not_le_free h0 ((Finset.mem_filter_univ i).mpr hi) (hout i hiS)
  · intro hi
    by_contra hfin
    obtain ⟨order, hnd, hmem, hserved⟩ := k.finish_order
    exact hS.not_mem_of_served h0 hnd hserved ((hmem i).mpr (by simpa using hfin)) hi

theorem finish_all_iff_safe (h0 : ∀ i, 0 ≤ p.held i) :
    (∀ i, k.finish p.held p.free i = true) ↔ p.Safe := by
  constructor
  · intro h
    obtain ⟨order, hnd, hmem, hs⟩ := k.finish_order
    exact ⟨order, hnd, fun i => (hmem i).mpr (h i), hs⟩
  · rintro ⟨order, hnd, hall, hs⟩ i
    exact (k.finish_iff h0 i).mpr ⟨order, hnd, hs, hall i⟩

open Classical in
/-- Some picker exists for every need. -/
noncomputable def choice (need : ι → V) : Picker need where
  pick w f := if h : ∃ i, f i = false ∧ need i ≤ w then some h.choose else none
  sound := by
    intro w f x hx
    split at hx
    · next h => obtain rfl := Option.some.inj hx; exact h.choose_spec
    · cases hx
  complete := by
    intro w f hx i hf hi
    split at hx
    · cases hx
    · next h => exact h ⟨i, hf, hi⟩

end Picker

/-! ## Safety through stuck sets -/

namespace Pool

variable [Fintype ι] [DecidableEq ι] [AddCommGroup V] [PartialOrder V] [IsOrderedAddMonoid V]
variable {p q : Pool ι V}

theorem safe_iff (h0 : ∀ i, 0 ≤ p.held i) : p.Safe ↔ ∀ S : Finset ι, S.Nonempty → ¬ p.Stuck S := by
  refine ⟨fun h S hne hS => hS.not_safe h0 hne h, fun h => ?_⟩
  rw [← (Picker.choice p.need).finish_all_iff_safe h0]
  intro i
  by_contra hi
  exact h _ ⟨i, by simpa using hi⟩ (Picker.choice p.need).finish_stuck

/-- Safety in terms of the total: in every set somebody's remaining need fits beside
what the set holds. -/
theorem safe_iff_total (h0 : ∀ i, 0 ≤ p.held i) :
    p.Safe ↔ ∀ S : Finset ι, S.Nonempty → ∃ i ∈ S, p.need i + ∑ j ∈ S, p.held j ≤ p.total := by
  simp only [safe_iff h0, not_stuck_iff]

omit [DecidableEq ι] in
/-- A member of `S` whose need is free is covered within `S`. -/
theorem covered_of_need_le_free (h0 : ∀ i, 0 ≤ p.held i) {i : ι} (hi : p.need i ≤ p.free)
    (S : Finset ι) : p.need i + ∑ j ∈ S, p.held j ≤ p.total :=
  add_le_add hi (Finset.sum_le_sum_of_subset_of_nonneg (Finset.subset_univ S) fun j _ _ => h0 j)

theorem safe_of_need_le_free (h0 : ∀ i, 0 ≤ p.held i) (h : ∀ i, p.need i ≤ p.free) : p.Safe :=
  (safe_iff_total h0).mpr fun S ⟨i, hi⟩ => ⟨i, hi, covered_of_need_le_free h0 (h i) S⟩

/-- Of two pools with one total, the one whose parties hold less and could come to
hold less is the safer. -/
theorem Safe.antitone (hp : p.Safe) (ht : q.total = p.total) (h0 : ∀ i, 0 ≤ q.held i)
    (hh : ∀ i, q.held i ≤ p.held i)
    (hc : ∀ i, q.need i + q.held i ≤ p.need i + p.held i) : q.Safe := by
  rw [safe_iff_total h0]
  rw [safe_iff_total fun i => (h0 i).trans (hh i)] at hp
  intro S hS
  obtain ⟨i, hi, hle⟩ := hp S hS
  refine ⟨i, hi, ?_⟩
  have hrest : ∑ j ∈ S.erase i, q.held j ≤ ∑ j ∈ S.erase i, p.held j :=
    Finset.sum_le_sum fun j _ => hh j
  calc q.need i + ∑ j ∈ S, q.held j
      = q.need i + q.held i + ∑ j ∈ S.erase i, q.held j := by
        rw [← Finset.add_sum_erase _ _ hi, add_assoc]
    _ ≤ p.need i + p.held i + ∑ j ∈ S.erase i, p.held j := add_le_add (hc i) hrest
    _ = p.need i + ∑ j ∈ S, p.held j := by rw [← Finset.add_sum_erase _ _ hi, add_assoc]
    _ ≤ q.total := by rw [ht]; exact hle

/-- A party that holds nothing may state any need that fits the total. -/
theorem Safe.raise (hp : p.Safe) (h0 : ∀ i, 0 ≤ p.held i) {x : ι} (hx : p.held x = 0) {c : V}
    (hc : c ≤ p.total) : Safe { p with need := Function.update p.need x c } := by
  rw [safe_iff_total h0] at hp
  rw [safe_iff_total (by exact h0)]
  intro S ⟨j, hj⟩
  have hsum : ∑ j ∈ S.erase x, p.held j = ∑ j ∈ S, p.held j := Finset.sum_erase _ hx
  by_cases hne : (S.erase x).Nonempty
  · obtain ⟨i, hi, hle⟩ := hp _ hne
    obtain ⟨hix, hiS⟩ := Finset.mem_erase.mp hi
    exact ⟨i, hiS, by simpa [hix, hsum, total] using hle⟩
  · have hempty := Finset.not_nonempty_iff_eq_empty.mp hne
    have hjx : j = x := by
      by_contra h
      simpa [hempty] using Finset.mem_erase.mpr ⟨h, hj⟩
    subst hjx
    refine ⟨j, hj, ?_⟩
    rw [hempty, Finset.sum_empty] at hsum
    simpa [← hsum, total] using hc

/-- A party whose whole need is free may be granted any part of it. -/
theorem Safe.grant (hp : p.Safe) (h0 : ∀ i, 0 ≤ p.held i) {x : ι} (hx : p.need x ≤ p.free) {r : V}
    (hr : 0 ≤ r) : (p.grant x r).Safe := by
  have h0' : ∀ i, 0 ≤ (p.grant x r).held i := by
    intro i
    by_cases h : i = x
    · subst h; simpa [Pool.grant] using add_nonneg (h0 i) hr
    · simpa [Pool.grant, h] using h0 i
  rw [safe_iff_total h0] at hp
  rw [safe_iff_total h0']
  intro S hS
  by_cases hxS : x ∈ S
  · refine ⟨x, hxS, ?_⟩
    have hneed : (p.grant x r).need x ≤ (p.grant x r).free := by
      simpa [Pool.grant] using hx
    exact covered_of_need_le_free h0' hneed S
  · obtain ⟨i, hi, hle⟩ := hp S hS
    have hsum : ∑ j ∈ S, (p.grant x r).held j = ∑ j ∈ S, p.held j := by
      refine Finset.sum_congr rfl fun j hj => ?_
      have hjx : j ≠ x := fun h => hxS (h ▸ hj)
      simp [Pool.grant, hjx]
    have hix : i ≠ x := fun h => hxS (h ▸ hi)
    exact ⟨i, hi, by rw [total_grant, hsum]; simpa [Pool.grant, hix] using hle⟩

end Pool

end Cs342.Library
