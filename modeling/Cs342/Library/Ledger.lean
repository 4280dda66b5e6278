import Mathlib.Algebra.BigOperators.Group.Finset.Piecewise
import Mathlib.Algebra.Order.BigOperators.Group.Finset
import Mathlib.Algebra.Order.Group.Multiset
import Mathlib.Algebra.BigOperators.Group.Multiset.Basic
import Mathlib.Data.Multiset.AddSub
import Cs342.Library.System

/-!
# Ledgers

Items arrive once each at one of several places and are then moved from place to
place. Nothing else happens to them, so an item that has arrived is in exactly one
place at any time, and once every other place is empty the items left are those
that have arrived. A program that hands work around refines this system.
-/

namespace Cs342.Library

variable {P J : Type*} [DecidableEq P]

structure Ledger (P J : Type*) where
  pending : Multiset J
  place : P → Multiset J

namespace Ledger

def put (l : Ledger P J) (p : P) (j : J) : Ledger P J :=
  { l with place := Function.update l.place p (j ::ₘ l.place p) }

inductive Step : Ledger P J → Ledger P J → Prop
  | arrive {l : Ledger P J} {j : J} {rest : Multiset J} (h : l.pending = j ::ₘ rest) (p : P) :
    Step l ({ l with pending := rest }.put p j)
  | move {l : Ledger P J} {j : J} {rest : Multiset J} {p : P} (h : l.place p = j ::ₘ rest)
      (q : P) :
    Step l ({ l with place := Function.update l.place p rest }.put q j)

/-- All items are still to arrive. -/
def system (items : Multiset J) : System (Ledger P J) where
  init l := l = ⟨items, fun _ => 0⟩
  step := Step

/-- A move between two different places, written as one update of each. -/
theorem Step.of_ne {l : Ledger P J} {j : J} {rest : Multiset J} {p q : P}
    (h : l.place p = j ::ₘ rest) (hne : q ≠ p) :
    Step l { l with
      place := Function.update (Function.update l.place p rest) q (j ::ₘ l.place q) } := by
  have := Step.move h q
  simpa only [put, Function.update_of_ne hne] using this

variable [Fintype P] {l l' : Ledger P J}

def total (l : Ledger P J) : Multiset J := ∑ p, l.place p

theorem sum_update_cons (f : P → Multiset J) (p : P) (j : J) (m : Multiset J) :
    ∑ q, Function.update f p (j ::ₘ m) q = j ::ₘ ∑ q, Function.update f p m q := by
  rw [Finset.sum_update_of_mem (Finset.mem_univ p), Finset.sum_update_of_mem (Finset.mem_univ p),
    Multiset.cons_add]

theorem total_put (p : P) (j : J) : (l.put p j).total = j ::ₘ l.total := by
  have := sum_update_cons l.place p j (l.place p)
  rwa [Function.update_eq_self] at this

theorem Step.total_eq (h : Step l l') : l'.pending + l'.total = l.pending + l.total := by
  cases h with
  | arrive h p => rw [total_put, h, Multiset.add_cons, Multiset.cons_add]; rfl
  | @move j rest p h q =>
    have := sum_update_cons l.place p j rest
    rw [← h, Function.update_eq_self] at this
    rw [total_put, total, total, this]; rfl

/-- Every item is still to arrive or somewhere. -/
theorem total_of_reachable {items : Multiset J} (h : (system items).Reachable l) :
    l.pending + l.total = items := by
  refine h.invariant (I := fun l => l.pending + l.total = items) ?_ ?_
  · rintro _ rfl
    simp [total]
  · exact fun s t _ hs st => (Step.total_eq st).trans hs

omit [DecidableEq P] in
theorem mem_total {j : J} : j ∈ l.total ↔ ∃ p, j ∈ l.place p := by
  simp [total, Multiset.mem_sum]

theorem mem_items {items : Multiset J} (h : (system items).Reachable l) {j : J} {p : P}
    (hj : j ∈ l.place p) : j ∈ items := by
  rw [← total_of_reachable h]
  exact Multiset.mem_add.mpr (.inr (mem_total.mpr ⟨p, hj⟩))

/-- What has a place is not still to arrive, if all items differ. -/
theorem notMem_pending {items : Multiset J} (h : (system items).Reachable l) (hnd : items.Nodup)
    {j : J} {p : P} (hj : j ∈ l.place p) : j ∉ l.pending := by
  rw [← total_of_reachable h, Multiset.nodup_add] at hnd
  exact Multiset.disjoint_right.mp hnd.2.2 (mem_total.mpr ⟨p, hj⟩)

/-- Two different places share no item, if all items differ. -/
theorem existsUnique_place {items : Multiset J} (h : (system items).Reachable l)
    (hnd : items.Nodup) {j : J} (hj : j ∈ items) (harrived : j ∉ l.pending) :
    ∃! p, j ∈ l.place p := by
  rw [← total_of_reachable h] at hnd hj
  obtain ⟨p, hp⟩ := mem_total.mp ((Multiset.mem_add.mp hj).resolve_left harrived)
  refine ⟨p, hp, fun q hq => ?_⟩
  by_contra hne
  have hle : l.place p + l.place q ≤ l.total := by
    have := Finset.sum_le_sum_of_subset (f := l.place) (Finset.subset_univ {q, p})
    rw [Finset.sum_pair hne, add_comm] at this
    exact this
  have hnd' := Multiset.nodup_of_le (hle.trans (Multiset.le_add_left _ _)) hnd
  exact Multiset.disjoint_left.mp (Multiset.nodup_add.mp hnd').2.2 hp hq

/-- No place holds an item twice. -/
theorem nodup_place {items : Multiset J} (h : (system items).Reachable l) (hnd : items.Nodup)
    (p : P) : (l.place p).Nodup := by
  rw [← total_of_reachable h] at hnd
  have hle : l.place p ≤ l.total :=
    Finset.single_le_sum (f := l.place) (by simp) (Finset.mem_univ p)
  exact Multiset.nodup_of_le (hle.trans (Multiset.le_add_left _ _)) hnd

end Ledger

end Cs342.Library
