import Mathlib.Data.Set.Card
import Cs342.Library.Chain

/-!
# Freeing a chain

An address is live while it has a cell. Freeing a chain node by node takes exactly its
addresses out of the live ones. So a heap with no more live addresses than a chain in it has
nodes is empty afterwards: no cell is lost outside the chain.
-/

namespace Cs342.Library

variable {α : Type*}

namespace Heap

variable {h g : Heap α} {a : ℕ} {c : Cell α} {v : Option ℕ}

def live (h : Heap α) : Set ℕ := {a | (h a).isSome = true}

theorem mem_live (hc : h a = some c) : a ∈ h.live := by simp [live, hc]

theorem live_write : (h.write a c).live = insert a h.live := by
  ext b
  by_cases hb : b = a
  · simp [live, write, hb]
  · simp [live, write, hb]

theorem live_free : (h.free a).live = h.live \ {a} := by
  ext b
  by_cases hb : b = a
  · simp [live, free, hb]
  · simp [live, free, hb]

/-- Writing to a cell that is there makes none. -/
theorem live_setNext (hg : h.setNext a v = some g) : g.live = h.live := by
  obtain ⟨c, hc, rfl⟩ := Option.map_eq_some_iff.mp hg
  rw [live_write, Set.insert_eq_of_mem (mem_live hc)]

theorem live_setPrev (hg : h.setPrev a v = some g) : g.live = h.live := by
  obtain ⟨c, hc, rfl⟩ := Option.map_eq_some_iff.mp hg
  rw [live_write, Set.insert_eq_of_mem (mem_live hc)]

/-- Free the cells from `cur` on, of at most `n`, with what they hold. The link of a cell is read
before the cell is freed. -/
def freeFrom : ℕ → Option ℕ → Heap α → Option (List α × Heap α)
  | _, none, h => some ([], h)
  | 0, some _, _ => none
  | n + 1, some cur, h => do
    let c ← h cur
    let (freed, h) ← freeFrom n c.next (h.free cur)
    some (c.data :: freed, h)

end Heap

namespace Chain

variable {h : Heap α} {p n : Option ℕ} {l : List (ℕ × α)}

theorem subset_live (hc : Chain h p l n) : ∀ a ∈ addrs l, a ∈ h.live := by
  induction l generalizing p with
  | nil => simp
  | cons c l ih =>
    intro a ha
    rcases List.mem_cons.mp ha with rfl | ha
    · exact Heap.mem_live hc.1
    · exact ih hc.2 a ha

/-- Every node of a chain is freed, and nothing else. -/
theorem freeFrom (hc : Chain h p l none) (hnd : (addrs l).Nodup) {k : ℕ} (hk : l.length ≤ k) :
    ∃ g, h.freeFrom k (firstAddr none l) = some (values l, g) ∧
      g.live = h.live \ {a | a ∈ addrs l} := by
  induction l generalizing h p k with
  | nil => exact ⟨h, by cases k <;> rfl, by simp⟩
  | cons c l ih =>
    obtain ⟨a, x⟩ := c
    obtain ⟨hcell, hrest⟩ := hc
    obtain ⟨ha, hnd⟩ := List.nodup_cons.mp hnd
    cases k with
    | zero => simp at hk
    | succ k =>
      have hfree : Chain (h.free a) (some a) l none :=
        hrest.frame (fun b hb => h.free_of_ne hb) ha
      obtain ⟨g, hg, hlive⟩ := ih hfree hnd (Nat.le_of_succ_le_succ hk)
      refine ⟨g, by simp [Heap.freeFrom, hcell, hg], ?_⟩
      rw [hlive, Heap.live_free, Set.sdiff_sdiff]
      congr 1
      ext b
      simp

/-- As many live addresses as nodes: there are no others. -/
theorem live_eq (hc : Chain h p l n) (hnd : (addrs l).Nodup) (hfin : h.live.Finite)
    (hcard : h.live.ncard = l.length) : h.live = {a | a ∈ addrs l} := by
  have hsub : {a | a ∈ addrs l} ⊆ h.live := fun a ha => hc.subset_live a ha
  refine (Set.eq_of_subset_of_ncard_le hsub ?_ hfin).symm
  have hcoe : {a | a ∈ addrs l} = ((addrs l).toFinset : Set ℕ) := by
    ext a
    simp
  rw [hcoe, Set.ncard_coe_finset, List.toFinset_card_of_nodup hnd, hcard, List.length_map]

end Chain

end Cs342.Library
