import Mathlib.Data.List.Basic

/-!
# Exchange sort

Each position in turn is compared with every later one, and the two are exchanged
when they are out of order. For a strict order whose incomparability is transitive
the result is sorted.
-/

namespace Cs342.Library

variable {α : Type*} (lt : α → α → Prop) [DecidableRel lt]

/-- Compare `cur` with all of `l`, keeping the lesser one: what `cur` ends as, and the rest. -/
def exchange (cur : α) : List α → α × List α
  | [] => (cur, [])
  | x :: l =>
    if lt x cur then ((exchange x l).1, cur :: (exchange x l).2)
    else ((exchange cur l).1, x :: (exchange cur l).2)

/-- Sort the first `n` positions. -/
def exchangeSort : ℕ → List α → List α
  | n + 1, cur :: l => (exchange lt cur l).1 :: exchangeSort n (exchange lt cur l).2
  | _, l => l

variable {lt} {cur x : α} {l : List α} {n : ℕ}

theorem exchange_perm : ((exchange lt cur l).1 :: (exchange lt cur l).2).Perm (cur :: l) := by
  induction l generalizing cur with
  | nil => exact .refl _
  | cons x l ih =>
    rw [exchange]
    split_ifs
    · exact (List.Perm.swap _ _ _).trans (ih.cons cur)
    · exact ((List.Perm.swap _ _ _).trans (ih.cons x)).trans (.swap _ _ _)

theorem exchange_length : (exchange lt cur l).2.length = l.length := by
  have h : ((exchange lt cur l).1 :: (exchange lt cur l).2).Perm (cur :: l) := exchange_perm
  simpa using h.length_eq

theorem exchangeSort_perm : (exchangeSort lt n l).Perm l := by
  induction n generalizing l with
  | zero => exact .refl _
  | succ n ih =>
    cases l with
    | nil => exact .refl _
    | cons cur l => exact (ih.cons _).trans exchange_perm

/-! Comparing images is comparing. -/

variable {β : Type*} {lt' : β → β → Prop} [DecidableRel lt'] {f : α → β}

theorem exchange_map (h : ∀ x y, lt' (f x) (f y) ↔ lt x y) :
    exchange lt' (f cur) (l.map f) = (f (exchange lt cur l).1, (exchange lt cur l).2.map f) := by
  induction l generalizing cur with
  | nil => rfl
  | cons x l ih =>
    simp only [List.map_cons, exchange, h, ih]
    split_ifs <;> rfl

theorem exchangeSort_map (h : ∀ x y, lt' (f x) (f y) ↔ lt x y) :
    exchangeSort lt' n (l.map f) = (exchangeSort lt n l).map f := by
  induction n generalizing l with
  | zero => rfl
  | succ n ih =>
    cases l with
    | nil => rfl
    | cons cur l => simp only [List.map_cons, exchangeSort, exchange_map h, ih]

section Sorted

variable (asymm : ∀ x y, lt x y → ¬ lt y x) (neg_trans : ∀ x y z, ¬ lt x y → ¬ lt y z → ¬ lt x z)
include asymm neg_trans

/-- Nothing that is compared is below what `cur` ends as. -/
theorem exchange_le :
    ¬ lt cur (exchange lt cur l).1 ∧ ∀ x ∈ (exchange lt cur l).2, ¬ lt x (exchange lt cur l).1 := by
  induction l generalizing cur with
  | nil => exact ⟨fun h => asymm _ _ h h, by simp [exchange]⟩
  | cons x l ih =>
    rw [exchange]
    split_ifs with h
    · obtain ⟨hx, hl⟩ := @ih x
      have hcur := neg_trans _ _ _ (asymm _ _ h) hx
      exact ⟨hcur, List.forall_mem_cons.mpr ⟨hcur, hl⟩⟩
    · obtain ⟨hcur, hl⟩ := @ih cur
      exact ⟨hcur, List.forall_mem_cons.mpr ⟨neg_trans _ _ _ h hcur, hl⟩⟩

/-- Sorting every position leaves no two out of order. -/
theorem exchangeSort_sorted (hn : l.length ≤ n) :
    (exchangeSort lt n l).Pairwise fun x y => ¬ lt y x := by
  induction n generalizing l with
  | zero =>
    obtain rfl := List.length_eq_zero_iff.mp (Nat.le_zero.mp hn)
    exact .nil
  | succ n ih =>
    cases l with
    | nil => exact .nil
    | cons cur l =>
      refine List.pairwise_cons.mpr ⟨fun x hx =>
        (exchange_le asymm neg_trans).2 x ?_, ih ?_⟩
      · exact exchangeSort_perm.mem_iff.mp hx
      · rw [exchange_length]
        simpa using hn

end Sorted

end Cs342.Library
