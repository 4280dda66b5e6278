import Mathlib.Data.Finset.Card
import Mathlib.Data.Fintype.Card
import Mathlib.Data.Set.Card

/-!
# Counting distinct keys

An array of flags and a counter: a key whose flag is not set sets it and adds one to the
counter. The flags set are those of the keys seen, so the counter is the number of
distinct keys, in whatever order and however often they come.
-/

namespace Cs342.Library

structure Marks (n : ℕ) where
  marked : Fin n → Bool
  count : ℤ

namespace Marks

variable {n : ℕ} {ι : Type*}

def clear : Marks n := ⟨fun _ => false, 0⟩

/-- `if (!marked[k]) { marked[k] = 1; count++; }` -/
def mark (m : Marks n) (k : Fin n) : Marks n :=
  if m.marked k then m else ⟨Function.update m.marked k true, m.count + 1⟩

/-- The same for an index that may lie outside of the array. -/
def visit (m : Marks n) (k : ℕ) : Option (Marks n) :=
  if h : k < n then some (m.mark ⟨k, h⟩) else none

theorem visit_val (m : Marks n) (k : Fin n) : m.visit k = some (m.mark k) := by
  simp [visit]

/-- The flags set are those of the keys seen, and the counter is their number. -/
def Counts (m : Marks n) (seen : Finset (Fin n)) : Prop :=
  (∀ k, m.marked k = true ↔ k ∈ seen) ∧ m.count = seen.card

variable {m : Marks n} {seen : Finset (Fin n)} {k : Fin n}

theorem clear_counts : (clear : Marks n).Counts ∅ := by
  simp [Counts, clear]

theorem Counts.mark (h : m.Counts seen) (k : Fin n) : (m.mark k).Counts (insert k seen) := by
  obtain ⟨hmarked, hcount⟩ := h
  by_cases hk : m.marked k = true
  · rw [Marks.mark, if_pos hk, Finset.insert_eq_of_mem ((hmarked k).mp hk)]
    exact ⟨hmarked, hcount⟩
  · have hnew : k ∉ seen := fun hseen => hk ((hmarked k).mpr hseen)
    rw [Marks.mark, if_neg hk]
    constructor
    · intro j
      rcases eq_or_ne j k with rfl | hne
      · simp
      · simp [hne, hmarked j]
    · rw [Finset.card_insert_of_notMem hnew, hcount]
      push_cast
      rfl

theorem Counts.foldl (h : m.Counts seen) (key : ι → Fin n) (l : List ι) :
    (l.foldl (fun m i => m.mark (key i)) m).Counts (seen ∪ (l.map key).toFinset) := by
  induction l generalizing m seen with
  | nil => simpa using h
  | cons i l ih =>
    have hstep := ih (h.mark (key i))
    rwa [Finset.insert_union, ← Finset.union_insert, ← List.toFinset_cons, ← List.map_cons]
      at hstep

/-- The counter is the number of distinct values of `f`, of which the keys are a renaming. -/
theorem count_foldl {β : Type*} {f : ι → β} {rename : β → Fin n}
    (hrename : Function.Injective rename) (l : List ι) :
    (l.foldl (fun m i => m.mark (rename (f i))) clear).count = (f '' {i | i ∈ l}).ncard := by
  have hcounts := (clear_counts.foldl (fun i => rename (f i)) l).2
  have hset : ((l.map fun i => rename (f i)).toFinset : Set (Fin n)) =
      rename '' (f '' {i | i ∈ l}) := by
    ext k
    simp
  rw [hcounts, Finset.empty_union, ← Set.ncard_coe_finset, hset,
    Set.ncard_image_of_injective _ hrename]

theorem count_foldl_le (key : ι → Fin n) (l : List ι) :
    (l.foldl (fun m i => m.mark (key i)) clear).count ≤ n := by
  have hcounts := (clear_counts.foldl key l).2
  rw [hcounts]
  exact_mod_cast (Finset.card_le_univ _).trans_eq (Fintype.card_fin n)

end Marks

end Cs342.Library
