import Mathlib.Data.List.Induction
import Mathlib.Data.List.Perm.Subperm
import Mathlib.Logic.Function.Basic

/-!
# Doubly linked chains in a heap

A cell holds a value and the addresses of its two neighbours; `none` is the null
pointer, and a write through an address without a cell fails. `Chain h p ns n`
says that the addresses and values `ns` form a doubly linked segment of `h`,
entered from `p` and left to `n`. The lemmas say what rewriting the outer pointers
of a segment does, and that writes elsewhere do not disturb it.
-/

namespace Cs342.Library

variable {α : Type*}

structure Cell (α : Type*) where
  data : α
  next : Option ℕ
  prev : Option ℕ

abbrev Heap (α : Type*) := ℕ → Option (Cell α)

namespace Heap

def write (h : Heap α) (a : ℕ) (c : Cell α) : Heap α := Function.update h a (some c)

def free (h : Heap α) (a : ℕ) : Heap α := Function.update h a none

/-- `a->next = v`. -/
def setNext (h : Heap α) (a : ℕ) (v : Option ℕ) : Option (Heap α) :=
  (h a).map fun c => h.write a { c with next := v }

/-- `a->prev = v`. -/
def setPrev (h : Heap α) (a : ℕ) (v : Option ℕ) : Option (Heap α) :=
  (h a).map fun c => h.write a { c with prev := v }

/-- What the cells hold on the way from `cur` along `step` to the null pointer; there are at most
`n` cells on it. -/
def follow (h : Heap α) (step : Cell α → Option ℕ) : ℕ → Option ℕ → Option (List α)
  | _, none => some []
  | 0, some _ => none
  | n + 1, some cur =>
    match h cur with
    | none => none
    | some c => (h.follow step n (step c)).map (c.data :: ·)

@[simp] theorem write_self (h : Heap α) (a : ℕ) (c : Cell α) : h.write a c a = some c := by
  simp [write]

theorem write_of_ne (h : Heap α) {a b : ℕ} (c : Cell α) (hb : b ≠ a) : h.write a c b = h b := by
  simp [write, hb]

theorem free_of_ne (h : Heap α) {a b : ℕ} (hb : b ≠ a) : h.free a b = h b := by
  simp [free, hb]

@[simp] theorem free_write (h : Heap α) (a : ℕ) (c : Cell α) : (h.write a c).free a = h.free a := by
  simp [free, write]

theorem setNext_eq {h : Heap α} {a : ℕ} {c : Cell α} (ha : h a = some c) (v : Option ℕ) :
    h.setNext a v = some (h.write a { c with next := v }) := by
  simp [setNext, ha]

theorem setPrev_eq {h : Heap α} {a : ℕ} {c : Cell α} (ha : h a = some c) (v : Option ℕ) :
    h.setPrev a v = some (h.write a { c with prev := v }) := by
  simp [setPrev, ha]

/-- A cell after a write to the `next` of some cell. -/
theorem setNext_cell {h g : Heap α} {a b : ℕ} {v : Option ℕ} {c : Cell α}
    (hset : h.setNext a v = some g) (hb : h b = some c) :
    ∃ d, g b = some d ∧ d.data = c.data ∧ d.prev = c.prev ∧ (v = c.next → d.next = c.next) := by
  obtain ⟨d, hd, rfl⟩ := Option.map_eq_some_iff.mp hset
  rcases eq_or_ne b a with rfl | hne
  · obtain rfl : d = c := Option.some.inj (hd.symm.trans hb)
    exact ⟨_, h.write_self _ _, rfl, rfl, id⟩
  · exact ⟨c, (h.write_of_ne _ hne).trans hb, rfl, rfl, fun _ => rfl⟩

/-- A cell after a write to the `prev` of some cell. -/
theorem setPrev_cell {h g : Heap α} {a b : ℕ} {v : Option ℕ} {c : Cell α}
    (hset : h.setPrev a v = some g) (hb : h b = some c) :
    ∃ d, g b = some d ∧ d.data = c.data := by
  obtain ⟨d, hd, rfl⟩ := Option.map_eq_some_iff.mp hset
  rcases eq_or_ne b a with rfl | hne
  · obtain rfl : d = c := Option.some.inj (hd.symm.trans hb)
    exact ⟨_, h.write_self _ _, rfl⟩
  · exact ⟨c, (h.write_of_ne _ hne).trans hb, rfl⟩

end Heap

/-- The address a segment is entered at, if it is left to `n`. -/
def firstAddr (n : Option ℕ) : List (ℕ × α) → Option ℕ
  | [] => n
  | (a, _) :: _ => some a

/-- The address a segment is left from, if it is entered from `p`. -/
def lastAddr (p : Option ℕ) : List (ℕ × α) → Option ℕ
  | [] => p
  | (a, _) :: ns => lastAddr (some a) ns

/-- The nodes `ns` are linked in `h` in both directions. -/
def Chain (h : Heap α) : Option ℕ → List (ℕ × α) → Option ℕ → Prop
  | _, [], _ => True
  | p, (a, x) :: ns, n => h a = some ⟨x, firstAddr n ns, p⟩ ∧ Chain h (some a) ns n

abbrev addrs (ns : List (ℕ × α)) : List ℕ := ns.map Prod.fst
abbrev values (ns : List (ℕ × α)) : List α := ns.map Prod.snd

@[simp] theorem firstAddr_nil (n : Option ℕ) : firstAddr n ([] : List (ℕ × α)) = n := rfl
@[simp] theorem firstAddr_cons (n : Option ℕ) (c : ℕ × α) (ns : List (ℕ × α)) :
    firstAddr n (c :: ns) = some c.1 := rfl
@[simp] theorem lastAddr_nil (p : Option ℕ) : lastAddr p ([] : List (ℕ × α)) = p := rfl
@[simp] theorem lastAddr_cons (p : Option ℕ) (c : ℕ × α) (ns : List (ℕ × α)) :
    lastAddr p (c :: ns) = lastAddr (some c.1) ns := rfl

@[simp] theorem firstAddr_append (n : Option ℕ) (l m : List (ℕ × α)) :
    firstAddr n (l ++ m) = firstAddr (firstAddr n m) l := by
  cases l <;> rfl

@[simp] theorem lastAddr_append (p : Option ℕ) (l m : List (ℕ × α)) :
    lastAddr p (l ++ m) = lastAddr (lastAddr p l) m := by
  induction l generalizing p with
  | nil => rfl
  | cons c l ih => exact ih (some c.1)

theorem lastAddr_concat (p : Option ℕ) (l : List (ℕ × α)) (c : ℕ × α) :
    lastAddr p (l ++ [c]) = some c.1 := by simp

/-- There are no more nodes than addresses that they can have. -/
theorem length_le_of_lt {ns : List (ℕ × α)} {b : ℕ} (hnd : (addrs ns).Nodup)
    (hlt : ∀ a ∈ addrs ns, a < b) : ns.length ≤ b := by
  have hsub : addrs ns ⊆ List.range b := fun a ha => List.mem_range.mpr (hlt a ha)
  simpa using (List.subperm_of_subset hnd hsub).length_le

namespace Chain

variable {h : Heap α} {p n : Option ℕ} {l m : List (ℕ × α)} {a : ℕ} {x : α}

theorem append_iff :
    Chain h p (l ++ m) n ↔ Chain h p l (firstAddr n m) ∧ Chain h (lastAddr p l) m n := by
  induction l generalizing p with
  | nil => simp [Chain]
  | cons c l ih => simp [Chain, ih, and_assoc]

/-- A segment lives on its own addresses. -/
theorem congr {g : Heap α} (hc : Chain h p l n) (heq : ∀ a ∈ addrs l, g a = h a) :
    Chain g p l n := by
  induction l generalizing p with
  | nil => trivial
  | cons c l ih =>
    exact ⟨(heq c.1 (by simp)).trans hc.1, ih hc.2 fun a ha => heq a (by simp_all)⟩

/-- A heap that differs at one address only does not disturb a segment elsewhere. -/
theorem frame {g : Heap α} (hc : Chain h p l n) (hoff : ∀ b ≠ a, g b = h b) (ha : a ∉ addrs l) :
    Chain g p l n :=
  hc.congr fun b hb => hoff b fun h => ha (h ▸ hb)

theorem join (hl : Chain h p l (firstAddr n m)) (hm : Chain h (lastAddr p l) m n) :
    Chain h p (l ++ m) n :=
  append_iff.mpr ⟨hl, hm⟩

/-- The first node of a segment, and its cell. -/
theorem exists_first (hc : Chain h p l n) (hne : l ≠ []) :
    ∃ c ∈ l, firstAddr n l = some c.1 ∧ ∃ next, h c.1 = some ⟨c.2, next, p⟩ := by
  cases l with
  | nil => exact absurd rfl hne
  | cons c l => exact ⟨c, by simp, rfl, _, hc.1⟩

/-- The cell of an inner node. -/
theorem cell_eq (hc : Chain h p (l ++ (a, x) :: m) n) :
    h a = some ⟨x, firstAddr n m, lastAddr p l⟩ :=
  (append_iff.mp hc).2.1

theorem follow_next (hc : Chain h p l none) {k : ℕ} (hk : l.length ≤ k) :
    h.follow Cell.next k (firstAddr none l) = some (values l) := by
  induction l generalizing k p with
  | nil => cases k <;> rfl
  | cons c l ih =>
    cases k with
    | zero => simp at hk
    | succ k =>
      have := ih hc.2 (by simpa using hk)
      simp [Heap.follow, hc.1, this]

/-- Backwards a chain is met in reverse. -/
theorem follow_prev (hc : Chain h none l n) {k : ℕ} (hk : l.length ≤ k) :
    h.follow Cell.prev k (lastAddr none l) = some (values l).reverse := by
  induction l using List.reverseRecOn generalizing k n with
  | nil => cases k <;> rfl
  | append_singleton l c ih =>
    obtain ⟨hl, hcell, -⟩ := append_iff.mp hc
    cases k with
    | zero => simp at hk
    | succ k =>
      have := ih hl (by simpa using hk)
      simp [Heap.follow, hcell, this]

/-- Redirecting the last pointer of a segment. -/
theorem setNext_last (hc : Chain h p (l ++ [(a, x)]) n) (hnd : (addrs (l ++ [(a, x)])).Nodup)
    (n' : Option ℕ) :
    ∃ g, h.setNext a n' = some g ∧ Chain g p (l ++ [(a, x)]) n' ∧ ∀ b ≠ a, g b = h b := by
  obtain ⟨hl, hcell, -⟩ := append_iff.mp hc
  have ha : a ∉ addrs l := by
    rw [addrs, List.map_append, List.nodup_append] at hnd
    exact fun h => hnd.2.2 a h a (by simp) rfl
  have hoff : ∀ b ≠ a, h.write a ⟨x, n', lastAddr p l⟩ b = h b := fun b hb => h.write_of_ne _ hb
  refine ⟨_, by simp [Heap.setNext, hcell], join (hl.frame hoff ha) ?_, hoff⟩
  exact ⟨by simp, trivial⟩

/-- Redirecting the first pointer of a segment. -/
theorem setPrev_first (hc : Chain h p ((a, x) :: l) n) (hnd : (addrs ((a, x) :: l)).Nodup)
    (p' : Option ℕ) :
    ∃ g, h.setPrev a p' = some g ∧ Chain g p' ((a, x) :: l) n ∧ ∀ b ≠ a, g b = h b := by
  obtain ⟨hcell, hl⟩ := hc
  have ha : a ∉ addrs l := (List.nodup_cons.mp hnd).1
  have hoff : ∀ b ≠ a, h.write a ⟨x, firstAddr n l, p'⟩ b = h b := fun b hb => h.write_of_ne _ hb
  exact ⟨_, by simp [Heap.setPrev, hcell], ⟨by simp, hl.frame hoff ha⟩, hoff⟩

end Chain

end Cs342.Library
