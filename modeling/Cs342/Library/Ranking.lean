import Mathlib.Algebra.BigOperators.Group.Finset.Piecewise
import Mathlib.Algebra.BigOperators.Group.List.Basic
import Mathlib.Algebra.Order.BigOperators.Group.List
import Mathlib.Algebra.Order.Ring.Int
import Mathlib.Data.List.Dedup
import Mathlib.Data.List.Flatten
import Mathlib.Data.List.Sort

/-!
# Tallies and rankings

Records give items amounts; the tally of an item is the sum of its amounts. Items are
ranked by their tally, the largest first, and by their own order where tallies are
equal, and `top k` is the first `k` of the ranking. `top_merge` says when the
records may be cut down to the top of each part before they are put together.
-/

namespace Cs342.Library

variable {α : Type*}

/-! ## The order -/

/-- `v` ranks before `w`. -/
def Before [LT α] (c : α → ℤ) (v w : α) : Prop := c w < c v ∨ c v = c w ∧ v < w

section Before

variable [LinearOrder α] {c c' : α → ℤ} {u v w : α}

instance : DecidableRel (Before c) := fun _ _ => inferInstanceAs (Decidable (_ ∨ _))

theorem Before.irrefl : ¬ Before c v v := by simp [Before]

theorem Before.trans (h : Before c u v) (h' : Before c v w) : Before c u w := by
  unfold Before at *
  rcases h with h | ⟨h, hlt⟩ <;> rcases h' with h' | ⟨h', hlt'⟩
  · exact .inl (h'.trans h)
  · exact .inl (h' ▸ h)
  · exact .inl (h ▸ h')
  · exact .inr ⟨h.trans h', hlt.trans hlt'⟩

theorem Before.asymm (h : Before c v w) : ¬ Before c w v := fun h' => (h.trans h').irrefl

theorem before_trichotomous (c : α → ℤ) (v w : α) : Before c v w ∨ v = w ∨ Before c w v := by
  unfold Before
  rcases lt_trichotomy (c v) (c w) with h | h | h
  · exact .inr (.inr (.inl h))
  · rcases lt_trichotomy v w with hvw | hvw | hvw
    · exact .inl (.inr ⟨h, hvw⟩)
    · exact .inr (.inl hvw)
    · exact .inr (.inr (.inr ⟨h.symm, hvw⟩))
  · exact .inl (.inl h)

/-- Not ranking before is transitive. -/
theorem not_before_trans (h : ¬ Before c u v) (h' : ¬ Before c v w) : ¬ Before c u w := by
  intro huw
  rcases before_trichotomous c u v with huv | rfl | hvu
  · exact h huv
  · exact h' huw
  · exact h' (hvu.trans huw)

theorem Before.congr (hv : c v = c' v) (hw : c w = c' w) : Before c v w ↔ Before c' v w := by
  rw [Before, Before, hv, hw]

instance : Std.Irrefl (Before c) := ⟨fun _ => Before.irrefl⟩
instance : Std.Antisymm (Before c) := ⟨fun _ _ h h' => absurd h' h.asymm⟩
instance : IsTrans α fun v w => ¬ Before c w v := ⟨fun _ _ _ h h' => not_before_trans h' h⟩
instance : Std.Total fun v w : α => ¬ Before c w v :=
  ⟨fun v w => (Classical.em (Before c w v)).symm.imp id fun h => h.asymm⟩

/-! ## Sorted lists of items -/

/-- The first `k` items are those that fewer than `k` items rank before. -/
theorem mem_take_of_pairwise {s : List α} (hs : s.Pairwise (Before c)) {k : ℕ} :
    w ∈ s.take k ↔ w ∈ s ∧ (s.filter fun v => Before c v w).length < k := by
  induction s generalizing k with
  | nil => simp
  | cons x s ih =>
    obtain ⟨hx, hs⟩ := List.pairwise_cons.mp hs
    cases k with
    | zero => simp
    | succ k =>
      rcases eq_or_ne w x with rfl | hne
      · have hnone : s.filter (fun v => Before c v w) = [] :=
          List.filter_eq_nil_iff.mpr fun v hv => by simpa using (hx v hv).asymm
        simp [hnone, Before.irrefl]
      · by_cases hw : w ∈ s
        · simp [hne, hw, ih hs, hx w hw]
        · have hk : w ∉ s.take k := fun h => hw (List.mem_of_mem_take h)
          simp [hne, hw, hk]

/-- Two rankings agree on their first `k` items when they agree on which these are and on
their tallies. -/
theorem take_eq_of_pairwise {s s' : List α} (hs : s.Pairwise (Before c))
    (hs' : s'.Pairwise (Before c')) {k : ℕ} (hmem : ∀ w, w ∈ s.take k ↔ w ∈ s'.take k)
    (heq : ∀ w ∈ s.take k, c w = c' w) :
    (s.take k).map (fun w => (w, c w)) = (s'.take k).map fun w => (w, c' w) := by
  have hs' : (s'.take k).Pairwise (Before c) := by
    refine (hs'.sublist (List.take_sublist k s')).imp_of_mem fun hv hw h => ?_
    exact (Before.congr (heq _ ((hmem _).mpr hv)) (heq _ ((hmem _).mpr hw))).mpr h
  have htake : s.take k = s'.take k :=
    (hs.sublist (List.take_sublist k s)).eq_of_mem_iff hs' hmem
  rw [← htake]
  exact List.map_congr_left fun w hw => by rw [heq w hw]

end Before

/-! ## Tallies -/

abbrev Records (α : Type*) := List (α × ℤ)

section Tally

variable [LinearOrder α]

/-- The items that have a record. -/
def items (rs : Records α) : List α := (rs.map Prod.fst).dedup

def tally (rs : Records α) (w : α) : ℤ := ((rs.filter fun r => r.1 = w).map Prod.snd).sum

variable {rs rs' : Records α} {v w : α} {x : ℤ}

theorem nodup_items (rs : Records α) : (items rs).Nodup := List.nodup_dedup _

theorem mem_items : w ∈ items rs ↔ ∃ x, (w, x) ∈ rs := by simp [items]

theorem items_append : w ∈ items (rs ++ rs') ↔ w ∈ items rs ∨ w ∈ items rs' := by
  simp [items]

@[simp] theorem tally_nil : tally ([] : Records α) w = 0 := rfl

theorem tally_cons (v : α) (x : ℤ) (rs : Records α) :
    tally ((v, x) :: rs) w = (if v = w then x else 0) + tally rs w := by
  by_cases h : v = w <;> simp [tally, h]

theorem tally_append : tally (rs ++ rs') w = tally rs w + tally rs' w := by
  simp [tally]

theorem tally_flatMap {β : Type*} {parts : List β} {f : β → Records α} :
    tally (parts.flatMap f) w = (parts.map fun p => tally (f p) w).sum := by
  induction parts with
  | nil => rfl
  | cons p parts ih => rw [List.flatMap_cons, tally_append, ih]; rfl

theorem tally_of_not_mem (h : w ∉ items rs) : tally rs w = 0 := by
  have hnone : rs.filter (fun r => r.1 = w) = [] := List.filter_eq_nil_iff.mpr fun r hr he => by
    obtain rfl := of_decide_eq_true he
    exact h (mem_items.mpr ⟨r.2, hr⟩)
  simp [tally, hnone]

theorem tally_of_nodup (h : (rs.map Prod.fst).Nodup) {r : α × ℤ} (hr : r ∈ rs) :
    tally rs r.1 = r.2 := by
  obtain ⟨l, l', rfl⟩ := List.append_of_mem hr
  rw [List.map_append, List.map_cons, List.nodup_middle, List.nodup_cons, List.mem_append,
    not_or] at h
  have hl : r.1 ∉ items l := fun hm => h.1.1 (List.mem_dedup.mp hm)
  have hl' : r.1 ∉ items l' := fun hm => h.1.2 (List.mem_dedup.mp hm)
  rw [tally_append, tally_cons, if_pos rfl, tally_of_not_mem hl, tally_of_not_mem hl']
  omega

/-- With one record for each item, the records are given by the items and their tallies. -/
theorem records_eq (h : (rs.map Prod.fst).Nodup) :
    rs = (rs.map Prod.fst).map fun w => (w, tally rs w) := by
  rw [List.map_map]
  exact (List.map_id rs).symm.trans
    (List.map_congr_left fun r hr => Prod.ext rfl (tally_of_nodup h hr).symm)

theorem tally_nonneg (hpos : ∀ r ∈ rs, 0 < r.2) : 0 ≤ tally rs w := by
  refine List.sum_nonneg fun x hx => ?_
  obtain ⟨r, hr, rfl⟩ := List.mem_map.mp hx
  exact (hpos r (List.mem_of_mem_filter hr)).le

theorem tally_pos (hpos : ∀ r ∈ rs, 0 < r.2) (hw : w ∈ items rs) : 0 < tally rs w := by
  obtain ⟨x, hx⟩ := mem_items.mp hw
  obtain ⟨l, l', rfl⟩ := List.append_of_mem hx
  have hl : 0 ≤ tally l w := tally_nonneg fun r hr => hpos r (by simp [hr])
  have hl' : 0 ≤ tally l' w := tally_nonneg fun r hr => hpos r (by simp [hr])
  have := hpos (w, x) (by simp)
  rw [tally_append, tally_cons, if_pos rfl]
  omega

/-- The amounts of all items together are all amounts. -/
theorem sum_tally [Fintype α] (rs : Records α) : ∑ w, tally rs w = (rs.map Prod.snd).sum := by
  induction rs with
  | nil => simp
  | cons r rs ih =>
    obtain ⟨v, x⟩ := r
    simp [tally_cons, Finset.sum_add_distrib, ih]

/-- A tally read off records with one entry for each item. -/
theorem tally_map {l : List α} (hl : l.Nodup) (f : α → ℤ) :
    tally (l.map fun w => (w, f w)) w = if w ∈ l then f w else 0 := by
  induction l with
  | nil => rfl
  | cons v l ih =>
    obtain ⟨hv, hl⟩ := List.nodup_cons.mp hl
    rw [List.map_cons, tally_cons, ih hl]
    by_cases h : v = w
    · subst h
      simp [hv]
    · simp [h, Ne.symm h]

end Tally

/-! ## The ranking of the items -/

section Ranking

variable [LinearOrder α] {rs rs' : Records α} {v w : α} {x : ℤ} {k : ℕ}

/-- How many items rank before `w`. -/
def rank (rs : Records α) (w : α) : ℕ :=
  ((items rs).filter fun v => Before (tally rs) v w).length

def ranking (rs : Records α) : List α :=
  (items rs).insertionSort fun v w => ¬ Before (tally rs) w v

/-- The first `k` items of the ranking with their tallies. -/
def top (k : ℕ) (rs : Records α) : Records α :=
  ((ranking rs).take k).map fun w => (w, tally rs w)

theorem ranking_perm : (ranking rs).Perm (items rs) := List.perm_insertionSort _ _

theorem pairwise_ranking : (ranking rs).Pairwise (Before (tally rs)) := by
  have hnd : (ranking rs).Nodup := ranking_perm.nodup_iff.mpr (nodup_items rs)
  have hsorted := List.pairwise_insertionSort (fun v w => ¬ Before (tally rs) w v) (items rs)
  refine (hsorted.and hnd).imp fun {v w} h => ?_
  exact ((before_trichotomous _ v w).resolve_right fun h' => h'.elim h.2 h.1)

/-- Any duplicate-free list of the items in ranked order is the ranking. -/
theorem eq_ranking {l : List α} (hnd : l.Nodup) (hmem : ∀ w, w ∈ l ↔ w ∈ items rs)
    (hl : l.Pairwise fun v w => ¬ Before (tally rs) w v) : l = ranking rs := by
  have hs : l.Pairwise (Before (tally rs)) := (hl.and hnd).imp fun {v w} h =>
    (before_trichotomous _ v w).resolve_right fun h' => h'.elim h.2 h.1
  exact hs.eq_of_mem_iff pairwise_ranking fun w => by rw [hmem, ranking_perm.mem_iff]

theorem mem_ranking_take : w ∈ (ranking rs).take k ↔ w ∈ items rs ∧ rank rs w < k := by
  rw [mem_take_of_pairwise pairwise_ranking, ranking_perm.mem_iff, rank,
    (ranking_perm.filter _).length_eq]

theorem mem_top : (w, x) ∈ top k rs ↔ (w ∈ items rs ∧ rank rs w < k) ∧ x = tally rs w := by
  simp only [top, List.mem_map, mem_ranking_take, Prod.mk.injEq]
  constructor
  · rintro ⟨v, hv, rfl, rfl⟩
    exact ⟨hv, rfl⟩
  · rintro ⟨hw, rfl⟩
    exact ⟨w, hw, rfl, rfl⟩

theorem top_pos (hpos : ∀ r ∈ rs, 0 < r.2) : ∀ r ∈ top k rs, 0 < r.2 := by
  rintro ⟨w, x⟩ h
  obtain ⟨⟨hw, -⟩, rfl⟩ := mem_top.mp h
  exact tally_pos hpos hw

theorem items_top_eq : items (top k rs) = (ranking rs).take k := by
  have hnd : (ranking rs).Nodup := ranking_perm.nodup_iff.mpr (nodup_items rs)
  rw [items, top, List.map_map]
  simpa [Function.comp_def] using (hnd.sublist (List.take_sublist k _)).dedup

theorem items_top : w ∈ items (top k rs) ↔ w ∈ items rs ∧ rank rs w < k := by
  rw [items_top_eq, mem_ranking_take]

theorem length_top : (top k rs).length = min k (items rs).length := by
  simp [top, ranking_perm.length_eq]

theorem top_ne_nil (hk : 0 < k) (hrs : rs ≠ []) : top k rs ≠ [] := by
  obtain ⟨r, hr⟩ := List.exists_mem_of_ne_nil rs hrs
  have hitems : 0 < (items rs).length := List.length_pos_of_mem (mem_items.mpr ⟨r.2, hr⟩)
  rw [← List.length_pos_iff, length_top]
  omega

theorem tally_top :
    tally (top k rs) w = if w ∈ items rs ∧ rank rs w < k then tally rs w else 0 := by
  have hnd : (ranking rs).Nodup := ranking_perm.nodup_iff.mpr (nodup_items rs)
  rw [top, tally_map (hnd.sublist (List.take_sublist _ _))]
  simp only [mem_ranking_take]

/-- Two tops are equal when they have the same items with the same tallies. -/
theorem top_ext (hmem : ∀ w, w ∈ items rs ∧ rank rs w < k ↔ w ∈ items rs' ∧ rank rs' w < k)
    (heq : ∀ w, w ∈ items rs → rank rs w < k → tally rs w = tally rs' w) :
    top k rs = top k rs' :=
  take_eq_of_pairwise pairwise_ranking pairwise_ranking
    (fun w => by rw [mem_ranking_take, mem_ranking_take, hmem])
    fun w hw => heq w (mem_ranking_take.mp hw).1 (mem_ranking_take.mp hw).2

/-- Fewer items are fewer that rank before. -/
theorem rank_le {w' : α} (h : ∀ v ∈ items rs, Before (tally rs) v w →
    v ∈ items rs' ∧ Before (tally rs') v w') : rank rs w ≤ rank rs' w' := by
  refine (List.subperm_of_subset ((nodup_items rs).filter _) fun v hv => ?_).length_le
  obtain ⟨hv, hb⟩ := List.mem_filter.mp hv
  obtain ⟨hv', hb'⟩ := h v hv (of_decide_eq_true hb)
  exact List.mem_filter.mpr ⟨hv', decide_eq_true hb'⟩

theorem rank_le_length : rank rs w ≤ (items rs).length := List.length_filter_le _ _

theorem le_rank {l : List α} (hl : l.Nodup)
    (h : ∀ v ∈ l, v ∈ items rs ∧ Before (tally rs) v w) : l.length ≤ rank rs w :=
  (List.subperm_of_subset hl fun v hv => List.mem_filter.mpr
    ⟨(h v hv).1, decide_eq_true (h v hv).2⟩).length_le

theorem before_of_rank_lt (h : rank rs v < rank rs w) : Before (tally rs) v w := by
  rcases before_trichotomous (tally rs) v w with hvw | rfl | hwv
  · exact hvw
  · exact absurd h (lt_irrefl _)
  · have hle : rank rs w ≤ rank rs v := rank_le fun u hu hb => ⟨hu, hb.trans hwv⟩
    omega

/-- Only the tallies count, not the order of the records. -/
theorem top_congr (hmem : ∀ w, w ∈ items rs ↔ w ∈ items rs')
    (heq : ∀ w, tally rs w = tally rs' w) : top k rs = top k rs' := by
  have hrank (w : α) : rank rs w = rank rs' w :=
    le_antisymm
      (rank_le fun v hv hb => ⟨(hmem v).mp hv, (Before.congr (heq v) (heq w)).mp hb⟩)
      (rank_le fun v hv hb => ⟨(hmem v).mpr hv, (Before.congr (heq v) (heq w)).mpr hb⟩)
  exact top_ext (fun w => by rw [hmem, hrank]) fun w _ _ => heq w

theorem top_perm (h : rs.Perm rs') : top k rs = top k rs' := by
  refine top_congr (fun w => by simp only [mem_items, h.mem_iff]) fun w => ?_
  rw [tally, tally]
  exact ((h.filter _).map Prod.snd).sum_eq

/-! ## Cutting down before merging -/

variable {parts : List (Records α)}

theorem items_flatMap {f : Records α → Records α} :
    w ∈ items (parts.flatMap f) ↔ ∃ p ∈ parts, w ∈ items (f p) := by
  simp only [mem_items, List.mem_flatMap]
  tauto

theorem items_flatten : w ∈ items parts.flatten ↔ ∃ p ∈ parts, w ∈ items p := by
  rw [← List.flatMap_id, items_flatMap]
  rfl

theorem tally_flatten : tally parts.flatten w = (parts.map fun p => tally p w).sum := by
  rw [← List.flatMap_id, tally_flatMap]
  rfl

theorem eq_of_sum_eq {β : Type*} {l : List β} {f g : β → ℤ} (hle : ∀ p ∈ l, f p ≤ g p)
    (hsum : (l.map f).sum = (l.map g).sum) : ∀ p ∈ l, f p = g p := by
  induction l with
  | nil => simp
  | cons p l ih =>
    obtain ⟨hp, hl⟩ := List.forall_mem_cons.mp hle
    have hrest := List.sum_le_sum hl
    simp only [List.map_cons, List.sum_cons] at hsum
    exact List.forall_mem_cons.mpr ⟨by omega, ih hl (by omega)⟩

/-- No item of the overall top is cut off in a part that has it. -/
def NotCut (k : ℕ) (parts : List (Records α)) : Prop :=
  ∀ w ∈ items parts.flatten, rank parts.flatten w < k →
    ∀ p ∈ parts, w ∈ items p → rank p w < k

section Merge

variable (hpos : ∀ p ∈ parts, ∀ r ∈ p, 0 < r.2)
include hpos

theorem tally_top_le : ∀ p ∈ parts, tally (top k p) w ≤ tally p w := by
  intro p hp
  rw [tally_top]
  split_ifs
  · exact le_rfl
  · exact tally_nonneg (hpos p hp)

theorem tally_merged_le : tally (parts.flatMap (top k)) w ≤ tally parts.flatten w := by
  rw [tally_flatMap, tally_flatten]
  exact List.sum_le_sum (tally_top_le hpos)

omit hpos in
theorem NotCut.tally_eq (h : NotCut k parts) (hw : w ∈ items parts.flatten)
    (hrank : rank parts.flatten w < k) :
    tally (parts.flatMap (top k)) w = tally parts.flatten w := by
  rw [tally_flatMap, tally_flatten]
  refine congrArg List.sum (List.map_congr_left fun p hp => ?_)
  rw [tally_top]
  split_ifs with hif
  · rfl
  · exact (tally_of_not_mem fun hwp => hif ⟨hwp, h w hw hrank p hp hwp⟩).symm

omit hpos in
theorem items_of_merged (h : w ∈ items (parts.flatMap (top k))) : w ∈ items parts.flatten := by
  obtain ⟨p, hp, hw⟩ := items_flatMap.mp h
  exact items_flatten.mpr ⟨p, hp, (items_top.mp hw).1⟩

omit hpos in
theorem NotCut.items_merged (h : NotCut k parts) (hw : w ∈ items parts.flatten)
    (hrank : rank parts.flatten w < k) : w ∈ items (parts.flatMap (top k)) := by
  obtain ⟨p, hp, hwp⟩ := items_flatten.mp hw
  exact items_flatMap.mpr ⟨p, hp, items_top.mpr ⟨hwp, h w hw hrank p hp hwp⟩⟩

/-- What ranks before an item of the overall top in the merged records does so overall. -/
theorem NotCut.rank_merged_lt (h : NotCut k parts) (hw : w ∈ items parts.flatten)
    (hrank : rank parts.flatten w < k) : rank (parts.flatMap (top k)) w < k := by
  refine lt_of_le_of_lt (rank_le fun v hv hb => ⟨items_of_merged hv, ?_⟩) hrank
  have hle := tally_merged_le hpos (w := v) (k := k)
  have heq := h.tally_eq hw hrank
  rcases hb with hlt | ⟨hvw, hlt⟩
  · exact .inl (by omega)
  · rcases hle.lt_or_eq with hv | hv
    · exact .inl (by omega)
    · exact .inr ⟨by omega, hlt⟩

/-- An item outside the overall top has the whole overall top before it in the merged
records too. -/
theorem NotCut.rank_lt_of_merged (h : NotCut k parts) (hw : w ∈ items (parts.flatMap (top k)))
    (hrank : rank (parts.flatMap (top k)) w < k) : rank parts.flatten w < k := by
  by_contra hge
  have hwA := items_of_merged hw
  set l := (ranking parts.flatten).take k with hl
  have hlen : l.length = k := by
    rw [hl, List.length_take, ranking_perm.length_eq]
    have hrank' : rank parts.flatten w ≤ (items parts.flatten).length := rank_le_length
    omega
  have hnd : l.Nodup :=
    (ranking_perm.nodup_iff.mpr (nodup_items _)).sublist (List.take_sublist _ _)
  have hle : l.length ≤ rank (parts.flatMap (top k)) w := by
    refine le_rank hnd fun v hv => ?_
    obtain ⟨hvA, hvk⟩ := mem_ranking_take.mp hv
    refine ⟨h.items_merged hvA hvk, ?_⟩
    have hv := h.tally_eq hvA hvk
    have hw := tally_merged_le hpos (w := w) (k := k)
    rcases before_of_rank_lt (hvk.trans_le (Nat.not_lt.mp hge)) with hlt | ⟨heq, hlt⟩
    · exact .inl (by omega)
    · rcases hw.lt_or_eq with hw | hw
      · exact .inl (by omega)
      · exact .inr ⟨by omega, hlt⟩
  omega

theorem top_merge : top k (parts.flatMap (top k)) = top k parts.flatten ↔ NotCut k parts := by
  constructor
  · intro h w hw hrank p hp hwp
    have hmem : (w, tally parts.flatten w) ∈ top k (parts.flatMap (top k)) :=
      h ▸ mem_top.mpr ⟨⟨hw, hrank⟩, rfl⟩
    have heq := (mem_top.mp hmem).2
    rw [tally_flatten, tally_flatMap] at heq
    have hp' := eq_of_sum_eq (tally_top_le hpos) heq.symm p hp
    have hne := (tally_pos (hpos p hp) hwp).ne'
    rw [tally_top] at hp'
    by_contra hge
    rw [if_neg fun hif => hge hif.2] at hp'
    exact hne hp'.symm
  · intro h
    symm
    refine top_ext (fun w => ⟨?_, ?_⟩) fun w hw hr => (h.tally_eq hw hr).symm
    · rintro ⟨hw, hr⟩
      exact ⟨h.items_merged hw hr, h.rank_merged_lt hpos hw hr⟩
    · rintro ⟨hw, hr⟩
      exact ⟨items_of_merged hw, h.rank_lt_of_merged hpos hw hr⟩

end Merge

/-- The cut leaves enough items for a full top if there were enough. -/
theorem le_length_items_merged :
    k ≤ (items (parts.flatMap (top k))).length ↔ k ≤ (items parts.flatten).length := by
  have hsub {l l' : List α} (hl : l.Nodup) (h : l ⊆ l') : l.length ≤ l'.length :=
    (List.subperm_of_subset hl h).length_le
  refine ⟨fun h => h.trans (hsub (nodup_items _) fun _ => items_of_merged), fun h => ?_⟩
  by_cases hfull : ∃ p ∈ parts, k ≤ (items p).length
  · obtain ⟨p, hp, hk⟩ := hfull
    have hlen : (items (top k p)).length = k := by
      rw [items_top_eq, List.length_take, ranking_perm.length_eq]
      omega
    have hle : (items (top k p)).length ≤ (items (parts.flatMap (top k))).length :=
      hsub (nodup_items _) fun w hw => items_flatMap.mpr ⟨p, hp, hw⟩
    omega
  · refine h.trans (hsub (nodup_items _) fun w hw => ?_)
    obtain ⟨p, hp, hwp⟩ := items_flatten.mp hw
    have hfew : ¬ k ≤ (items p).length := fun hk => hfull ⟨p, hp, hk⟩
    have hrank : rank p w ≤ (items p).length := rank_le_length
    exact items_flatMap.mpr ⟨p, hp, items_top.mpr ⟨hwp, by omega⟩⟩

theorem min_length_items_merged :
    min k (items (parts.flatMap (top k))).length = min k (items parts.flatten).length := by
  by_cases hk : k ≤ (items parts.flatten).length
  · rw [min_eq_left hk, min_eq_left (le_length_items_merged.mpr hk)]
  · -- too few items for any to be cut off
    have hperm : (items (parts.flatMap (top k))).Perm (items parts.flatten) := by
      rw [List.perm_ext_iff_of_nodup (nodup_items _) (nodup_items _)]
      refine fun w => ⟨items_of_merged, fun hw => ?_⟩
      obtain ⟨p, hp, hwp⟩ := items_flatten.mp hw
      have hle : (items p).length ≤ (items parts.flatten).length :=
        (List.subperm_of_subset (nodup_items p) fun v hv =>
          items_flatten.mpr ⟨p, hp, hv⟩).length_le
      have hrank : rank p w ≤ (items p).length := rank_le_length
      exact items_flatMap.mpr ⟨p, hp, items_top.mpr ⟨hwp, by omega⟩⟩
    rw [hperm.length_eq]

/-! ## What the cut can hide -/

/-- The last tally of a full top; a shorter one cuts off nothing. -/
def cutoff (k : ℕ) (rs : Records α) : ℤ := ((top k rs)[k - 1]?).elim 0 Prod.snd

theorem cutoff_nonneg (hpos : ∀ r ∈ rs, 0 < r.2) : 0 ≤ cutoff k rs := by
  unfold cutoff
  cases h : (top k rs)[k - 1]? with
  | none => exact le_rfl
  | some r => exact (top_pos hpos r (List.mem_of_getElem? h)).le

/-- What is cut off has no larger tally than the last that is kept. -/
theorem tally_le_cutoff (hk : 0 < k) (h : k ≤ rank rs w) : tally rs w ≤ cutoff k rs := by
  have hlen : k - 1 < (top k rs).length := by
    have hle : rank rs w ≤ (items rs).length := rank_le_length
    rw [length_top]
    omega
  obtain ⟨u, x, hr⟩ : ∃ u x, (top k rs)[k - 1]? = some (u, x) :=
    ⟨_, _, List.getElem?_eq_getElem hlen⟩
  obtain ⟨⟨-, hrank⟩, rfl⟩ := mem_top.mp (List.mem_of_getElem? hr)
  rw [cutoff, hr]
  rcases before_of_rank_lt (hrank.trans_le h) with hlt | ⟨heq, -⟩
  · exact hlt.le
  · exact heq.ge

theorem tally_le_top_add (hk : 0 < k) (hpos : ∀ r ∈ rs, 0 < r.2) :
    tally rs w ≤ tally (top k rs) w + cutoff k rs := by
  have hcut := cutoff_nonneg (k := k) hpos
  rw [tally_top]
  split_ifs with h
  · omega
  · by_cases hw : w ∈ items rs
    · have := tally_le_cutoff hk (Nat.not_lt.mp fun hr => h ⟨hw, hr⟩)
      omega
    · rw [tally_of_not_mem hw]
      omega

/-- A merged tally misses no more than the cutoffs of all parts. -/
theorem tally_le_merged_add (hk : 0 < k) (hpos : ∀ p ∈ parts, ∀ r ∈ p, 0 < r.2) :
    tally parts.flatten w ≤
      tally (parts.flatMap (top k)) w + (parts.map (cutoff k)).sum := by
  rw [tally_flatMap, tally_flatten, ← List.sum_map_add]
  exact List.sum_le_sum fun p hp => tally_le_top_add hk (hpos p hp)

/-- Whoever ranks before `w` in the merged records comes near to it overall. -/
theorem rank_merged_le (hk : 0 < k) (hpos : ∀ p ∈ parts, ∀ r ∈ p, 0 < r.2) :
    rank (parts.flatMap (top k)) w ≤ ((items parts.flatten).filter fun v =>
      v ≠ w ∧ tally parts.flatten w ≤
        tally parts.flatten v + (parts.map (cutoff k)).sum).length := by
  refine (List.subperm_of_subset ((nodup_items _).filter _) fun v hv => ?_).length_le
  obtain ⟨hv, hb⟩ := List.mem_filter.mp hv
  have hb : Before (tally (parts.flatMap (top k))) v w := of_decide_eq_true hb
  refine List.mem_filter.mpr ⟨items_of_merged hv, decide_eq_true ⟨?_, ?_⟩⟩
  · rintro rfl
    exact hb.irrefl
  · have hvle := tally_merged_le hpos (w := v) (k := k)
    have hwle := tally_le_merged_add (w := w) hk hpos
    rcases hb with hlt | ⟨heq, -⟩ <;> omega

/-! ## An item that ranks last -/

section Last

variable {z : α} {n : ℕ}

theorem tally_append_replicate : tally (rs ++ List.replicate n (z, 0)) w = tally rs w := by
  have hzero : tally (List.replicate n (z, (0 : ℤ))) w = 0 := by
    induction n with
    | zero => rfl
    | succ n ih => rw [List.replicate_succ, tally_cons, ih, ite_self, add_zero]
  rw [tally_append, hzero, add_zero]

theorem items_append_replicate (hn : n ≠ 0) :
    w ∈ items (rs ++ List.replicate n (z, 0)) ↔ w ∈ items rs ∨ w = z := by
  simp only [mem_items, List.mem_append, List.mem_replicate, Prod.mk.injEq]
  constructor
  · rintro ⟨x, hx | ⟨-, rfl, -⟩⟩
    · exact .inl ⟨x, hx⟩
    · exact .inr rfl
  · rintro (⟨x, hx⟩ | rfl)
    · exact ⟨x, .inl hx⟩
    · exact ⟨0, .inr ⟨hn, rfl, rfl⟩⟩

theorem length_items_append_replicate (hz : z ∉ items rs) (hn : n ≠ 0) :
    (items (rs ++ List.replicate n (z, 0))).length = (items rs).length + 1 := by
  have hperm : (items (rs ++ List.replicate n (z, 0))).Perm (z :: items rs) := by
    rw [List.perm_ext_iff_of_nodup (nodup_items _) (List.nodup_cons.mpr ⟨hz, nodup_items _⟩)]
    intro w
    rw [items_append_replicate hn, List.mem_cons, or_comm]
  rw [hperm.length_eq, List.length_cons]

theorem before_append_replicate :
    Before (tally (rs ++ List.replicate n (z, 0))) v w ↔ Before (tally rs) v w :=
  Before.congr tally_append_replicate tally_append_replicate

section Positive

variable (hpos : ∀ r ∈ rs, 0 < r.2) (hz : z ∉ items rs) (hn : n ≠ 0)
include hpos hz

/-- An item without a positive record ranks behind all that have only such. -/
theorem before_of_not_mem (hv : v ∈ items rs) : Before (tally rs) v z := by
  left
  rw [tally_of_not_mem hz]
  exact tally_pos hpos hv

include hn

theorem rank_append_replicate (hw : w ∈ items rs) :
    rank (rs ++ List.replicate n (z, 0)) w = rank rs w := by
  apply le_antisymm
  · refine rank_le fun v hv hb => ?_
    rw [before_append_replicate] at hb
    refine ⟨((items_append_replicate hn).mp hv).resolve_right ?_, hb⟩
    rintro rfl
    exact hb.asymm (before_of_not_mem hpos hz hw)
  · exact rank_le fun v hv hb =>
      ⟨(items_append_replicate hn).mpr (.inl hv), before_append_replicate.mpr hb⟩

theorem length_items_le_rank :
    (items rs).length ≤ rank (rs ++ List.replicate n (z, 0)) z :=
  le_rank (nodup_items rs) fun _ hv => ⟨(items_append_replicate hn).mpr (.inl hv),
    before_append_replicate.mpr (before_of_not_mem hpos hz hv)⟩

/-- Empty records of a new item show up exactly when the top is not full without it. -/
theorem top_append_replicate :
    top k (rs ++ List.replicate n (z, 0)) = top k rs ↔ k ≤ (items rs).length := by
  constructor
  · intro h
    have hlen := congrArg List.length h
    rw [length_top, length_top, length_items_append_replicate hz hn] at hlen
    omega
  · intro hk
    have hrankz := length_items_le_rank hpos hz hn
    refine top_ext (fun w => ?_) fun w _ _ => tally_append_replicate
    rw [items_append_replicate hn]
    constructor
    · rintro ⟨hw | rfl, hr⟩
      · exact ⟨hw, rank_append_replicate hpos hz hn hw ▸ hr⟩
      · omega
    · rintro ⟨hw, hr⟩
      exact ⟨.inl hw, (rank_append_replicate hpos hz hn hw).symm ▸ hr⟩

/-- A new item with empty records ranks last. -/
theorem ranking_append_replicate :
    ranking (rs ++ List.replicate n (z, 0)) = ranking rs ++ [z] := by
  have hmem : ∀ w, w ∈ ranking rs ↔ w ∈ items rs := fun w => ranking_perm.mem_iff
  refine (eq_ranking ?_ (fun w => ?_) ?_).symm
  · refine (ranking_perm.nodup_iff.mpr (nodup_items rs)).append (List.nodup_singleton z) ?_
    exact List.disjoint_singleton.mpr fun h => hz ((hmem z).mp h)
  · rw [List.mem_append, hmem, items_append_replicate hn, List.mem_singleton]
  · simp only [before_append_replicate]
    refine List.pairwise_append.mpr ⟨?_, List.pairwise_singleton _ _, ?_⟩
    · exact pairwise_ranking.imp Before.asymm
    · intro v hv w hw
      rw [List.mem_singleton.mp hw]
      exact (before_of_not_mem hpos hz ((hmem v).mp hv)).asymm

/-- So it is in the top only if there is room behind all others. -/
theorem top_append_replicate_eq : top k (rs ++ List.replicate n (z, 0)) =
    top k rs ++ [(z, 0)].take (k - (items rs).length) := by
  have htally : tally (rs ++ List.replicate n (z, 0)) = tally rs :=
    funext fun w => tally_append_replicate
  have hlast : [(z, tally rs z)] = [(z, 0)] := by rw [tally_of_not_mem hz]
  rw [top, ranking_append_replicate hpos hz hn, htally, List.take_append, List.map_append,
    ranking_perm.length_eq, ← hlast, ← top]
  exact congrArg _ (List.map_take)

end Positive

end Last

end Ranking

end Cs342.Library
