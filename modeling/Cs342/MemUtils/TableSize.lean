import Cs342.Library.Marks
import Cs342.MemUtils.Pagemap

/-!
# Counting page tables

`all_table_size` walks over the pages of all ranges and marks, level by level, the tables
an address of the page goes through. Tables of levels 2 and 3 are indexed by address bits
39-47 and 30-47. The index of a table of level 4 has the three nine-bit fields of bits
21-47 in another order, but still one index for each of their values.
-/

namespace Cs342.MemUtils

open Library

/-- The arrays `level2`, `level3` and `level4`, each with its count. -/
structure Levels where
  level2 : Marks (2 ^ 9)
  level3 : Marks (2 ^ 18)
  level4 : Marks (2 ^ 27)

namespace Levels

def clear : Levels := ⟨Marks.clear, Marks.clear, Marks.clear⟩

/-- One page; with an index outside of its array nothing more can be said. -/
def page (i : Word) (s : Levels) : Flow Levels :=
  let pdptIndex := (i >>> 9) &&& 0x1ff#64
  let pdIndex := (i >>> 18) &&& 0x1ff#64
  let ptIndex := (i >>> 27) &&& 0x1ff#64
  match s.level2.visit ptIndex.toNat, s.level3.visit ((ptIndex <<< 9) + pdIndex).toNat,
    s.level4.visit ((ptIndex <<< 9) + (pdIndex <<< 18) + pdptIndex).toNat with
  | some level2, some level3, some level4 => .next ⟨level2, level3, level4⟩
  | _, _, _ => .exit

/-- The number of frames, with the one table of level 1. -/
def frames (s : Levels) : ℤ :=
  let level1Count := 1
  level1Count + s.level2.count + s.level3.count + s.level4.count

def kilobytes (s : Levels) : ℤ := s.frames <<< (2 : ℕ)

end Levels

/-- The loops of `all_table_size`. -/
def allTableSize (ranges : List VaRange) : Option Levels :=
  ranges.foldlM (fun s (r : VaRange) =>
    forLoop (fun i => i < r.vaEnd >>> 12) 1 Levels.page rounds (r.vaBegin >>> 12) s)
    Levels.clear

/-! ## Address bits -/

/-- Bits of the addresses in a page. -/
def addressBits (lo len : ℕ) (page : Word) : BitVec len := (page <<< 12).extractLsb' lo len

theorem toNat_addressBits (k len : ℕ) (page : Word) (hlen : k + 12 + len ≤ 64) :
    (addressBits (k + 12) len page).toNat = page.toNat / 2 ^ k % 2 ^ len := by
  have hpage : addressBits (k + 12) len page = page.extractLsb' k len := by
    apply BitVec.eq_of_getLsbD_eq
    intro i hi
    have hlow : ¬ k + 12 + i < 12 := by omega
    have hhigh : k + 12 + i < 64 := by omega
    have hshift : k + 12 + i - 12 = k + i := by omega
    simp [addressBits, hi, hlow, hhigh, hshift]
    rfl
  rw [hpage, BitVec.extractLsb'_toNat, Nat.shiftRight_eq_div_pow]

/-- Three nine-bit fields, the first of them in the middle. -/
def pack (pt pd pdpt : ℕ) : ℕ := pt * 2 ^ 9 + pd * 2 ^ 18 + pdpt

theorem pack_inj {pt pd pdpt pt' pd' pdpt' : ℕ} (hpt : pt < 2 ^ 9) (hpdpt : pdpt < 2 ^ 9)
    (hpt' : pt' < 2 ^ 9) (hpdpt' : pdpt' < 2 ^ 9) (h : pack pt pd pdpt = pack pt' pd' pdpt') :
    pt = pt' ∧ pd = pd' ∧ pdpt = pdpt' := by
  unfold pack at h
  omega

/-- The index of a table of level 4, from address bits 21-47. -/
def rename4 (bits : BitVec 27) : Fin (2 ^ 27) :=
  ⟨pack (bits.toNat / 2 ^ 18) (bits.toNat / 2 ^ 9 % 2 ^ 9) (bits.toNat % 2 ^ 9), by
    have := bits.isLt
    unfold pack
    omega⟩

theorem rename4_val {bits : BitVec 27} {n : ℕ} (h : bits.toNat = n / 2 ^ 9 % 2 ^ 27) :
    (rename4 bits).val = pack (n / 2 ^ 27 % 2 ^ 9) (n / 2 ^ 18 % 2 ^ 9) (n / 2 ^ 9 % 2 ^ 9) := by
  have hpt : n / 2 ^ 9 % 2 ^ 27 / 2 ^ 18 = n / 2 ^ 27 % 2 ^ 9 := by omega
  have hpd : n / 2 ^ 9 % 2 ^ 27 / 2 ^ 9 % 2 ^ 9 = n / 2 ^ 18 % 2 ^ 9 := by omega
  have hpdpt : n / 2 ^ 9 % 2 ^ 27 % 2 ^ 9 = n / 2 ^ 9 % 2 ^ 9 := by omega
  simp only [rename4, h, hpt, hpd, hpdpt]

theorem rename4_injective : Function.Injective rename4 := by
  intro x y h
  have hx := x.isLt
  have hy := y.isLt
  obtain ⟨hpt, hpd, hpdpt⟩ := pack_inj (by omega) (by omega) (by omega) (by omega)
    (congrArg Fin.val h)
  apply BitVec.eq_of_toNat_eq
  omega

/-! ## The loops -/

namespace Levels

/-- One page, with the arrays indexed by address bits. -/
def mark (s : Levels) (i : Word) : Levels where
  level2 := s.level2.mark (addressBits 39 9 i).toFin
  level3 := s.level3.mark (addressBits 30 18 i).toFin
  level4 := s.level4.mark (rename4 (addressBits 21 27 i))

theorem toNat_field (i : Word) (k : ℕ) :
    ((i >>> k) &&& 0x1ff#64).toNat = i.toNat / 2 ^ k % 2 ^ 9 := by
  rw [← toNat_shr]
  exact toNat_mask (i >>> k) (show 9 ≤ 64 by decide)

/-- Every index lies inside of its array. -/
theorem page_eq (i : Word) (s : Levels) : page i s = .next (s.mark i) := by
  have hpt := toNat_field i 27
  have hpd := toNat_field i 18
  have hpdpt := toNat_field i 9
  have h2 := toNat_addressBits 27 9 i (by decide)
  have h3 := toNat_addressBits 18 18 i (by decide)
  have h4 := toNat_addressBits 9 27 i (by decide)
  simp only [page]
  generalize (i >>> 27) &&& 0x1ff#64 = ptIndex at hpt ⊢
  generalize (i >>> 18) &&& 0x1ff#64 = pdIndex at hpd ⊢
  generalize (i >>> 9) &&& 0x1ff#64 = pdptIndex at hpdpt ⊢
  have hlevel2 : ptIndex.toNat = ((addressBits 39 9 i).toFin : Fin (2 ^ 9)) :=
    hpt.trans h2.symm
  have hlevel3 : ((ptIndex <<< 9) + pdIndex).toNat =
      ((addressBits 30 18 i).toFin : Fin (2 ^ 18)) := by
    refine Eq.trans ?_ h3.symm
    rw [BitVec.toNat_add, BitVec.toNat_shiftLeft, Nat.shiftLeft_eq, hpt, hpd]
    omega
  have hlevel4 : ((ptIndex <<< 9) + (pdIndex <<< 18) + pdptIndex).toNat =
      (rename4 (addressBits 21 27 i)).val := by
    rw [rename4_val h4, ← hpt, ← hpd, ← hpdpt, pack, BitVec.toNat_add, BitVec.toNat_add,
      BitVec.toNat_shiftLeft, BitVec.toNat_shiftLeft, Nat.shiftLeft_eq, Nat.shiftLeft_eq]
    omega
  rw [hlevel2, hlevel3, hlevel4, Marks.visit_val, Marks.visit_val, Marks.visit_val]
  rfl

end Levels

/-- A loop over the pages of a range. -/
theorem forLoop_pages {σ : Type*} {body : Word → σ → Flow σ} {f : σ → Word → σ}
    (hbody : ∀ i s, body i s = .next (f s i)) (r : VaRange) (s : σ) :
    forLoop (fun i => i < r.vaEnd >>> 12) 1 body rounds (r.vaBegin >>> 12) s =
      some (r.pages.foldl f s) := by
  have hbegin := (r.vaBegin >>> 12).isLt
  have hend := r.vaEnd.isLt
  have hone : (1 : Word).toNat = 1 := rfl
  have hpage := toNat_page r.vaEnd
  apply forLoop_lt fun i _ => hbody i
  · rw [hone]
    omega
  · rw [rounds]
    omega
  · intro i hi
    rw [hone]
    omega
  · rw [hone]
    omega

theorem allTableSize_eq (ranges : List VaRange) :
    allTableSize ranges = some ((ranges.flatMap VaRange.pages).foldl Levels.mark Levels.clear) := by
  simp only [allTableSize, forLoop_pages Levels.page_eq, List.foldl_flatMap]
  exact List.foldlM_pure

/-- The count of one level. -/
theorem count_level {n k : ℕ} (level : Levels → Marks n) (hclear : level Levels.clear = Marks.clear)
    {bits : Word → BitVec k} {rename : BitVec k → Fin n} (hrename : Function.Injective rename)
    (hmark : ∀ s i, level (s.mark i) = (level s).mark (rename (bits i))) (l : List Word) :
    (level (l.foldl Levels.mark Levels.clear)).count = (bits '' {i | i ∈ l}).ncard ∧
      (level (l.foldl Levels.mark Levels.clear)).count ≤ n := by
  have hfold : level (l.foldl Levels.mark Levels.clear) =
      l.foldl (fun m i => m.mark (rename (bits i))) Marks.clear := by
    rw [← hclear]
    exact (List.foldl_hom level fun s i => (hmark s i).symm).symm
  rw [hfold]
  exact ⟨Marks.count_foldl hrename l, Marks.count_foldl_le _ l⟩

theorem toFin_injective (n : ℕ) : Function.Injective (BitVec.toFin : BitVec n → Fin (2 ^ n)) :=
  fun _ _ => BitVec.toFin_inj.mp

/-- The counts are those of the distinct tables that the pages of the ranges go through, no index
lies outside of its array, and neither the number of frames nor that of kilobytes overflows. -/
theorem table_counts_exact (ranges : List VaRange) :
    let pages : Set Word := {p | ∃ r ∈ ranges, r.vaBegin >>> 12 ≤ p ∧ p < r.vaEnd >>> 12}
    ∃ s, allTableSize ranges = some s ∧ s.level2.count = (addressBits 39 9 '' pages).ncard ∧
      s.level3.count = (addressBits 30 18 '' pages).ncard ∧
      s.level4.count = (addressBits 21 27 '' pages).ncard ∧
      1 ≤ s.frames ∧ s.frames < 2 ^ 31 ∧ s.kilobytes < 2 ^ 31 := by
  intro pages
  have hpages : {p | p ∈ ranges.flatMap VaRange.pages} = pages := by
    ext p
    simp [pages, List.mem_flatMap, VaRange.mem_pages]
  obtain ⟨h2, hle2⟩ := count_level Levels.level2 rfl (toFin_injective 9) (fun _ _ => rfl)
    (ranges.flatMap VaRange.pages)
  obtain ⟨h3, hle3⟩ := count_level Levels.level3 rfl (toFin_injective 18) (fun _ _ => rfl)
    (ranges.flatMap VaRange.pages)
  obtain ⟨h4, hle4⟩ := count_level Levels.level4 rfl rename4_injective (fun _ _ => rfl)
    (ranges.flatMap VaRange.pages)
  rw [hpages] at h2 h3 h4
  refine ⟨_, allTableSize_eq ranges, h2, h3, h4, ?_⟩
  simp only [Levels.kilobytes, Levels.frames, Int.shiftLeft_eq]
  omega

end Cs342.MemUtils
