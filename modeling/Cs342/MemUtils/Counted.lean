import Cs342.MemUtils.MemUsed
import Cs342.MemUtils.TableSize

/-!
# Which ranges are counted

`sscanf` may leave any two numbers in the addresses, and the loops of `all_table_size` and
`mem_used` then go over what lies between them. Often that is nothing: a range counts for a loop
if the loop visits a page of it, or adds something. A range that does not count changes no total.
-/

namespace Cs342.MemUtils

open Library

/-- What the first loop of `mem_used` adds up. -/
def virtualSum (ranges : List VaRange) : Word :=
  ranges.foldl (fun (sum : Word) (r : VaRange) => sum + ((r.vaEnd - r.vaBegin) >>> 10)) 0

/-- `all_table_size` visits a page. -/
def TableCounts (r : VaRange) : Prop := r.vaBegin >>> 12 < r.vaEnd >>> 12

/-- The first loop of `mem_used` adds something. -/
def VirtualCounts (r : VaRange) : Prop := (r.vaEnd - r.vaBegin) >>> 10 ≠ 0

/-- How much the second loop of `mem_used` counts for a page that is in memory. -/
def memCount (addrEnd VPN : Word) : Word :=
  if VPN = addrEnd >>> 12 then addrEnd - (VPN <<< 12) else 4096

/-- The second loop of `mem_used` visits a page that would count. -/
def PhysicalCounts (r : VaRange) : Prop :=
  ∃ VPN, r.vaBegin >>> 12 ≤ VPN ∧ VPN < r.vaEnd >>> 12 + 1 ∧ memCount r.vaEnd VPN ≠ 0

instance : DecidablePred TableCounts := fun _ => inferInstanceAs (Decidable (_ < _))

instance : DecidablePred VirtualCounts := fun _ => inferInstanceAs (Decidable (_ ≠ _))

theorem virtualCounts_iff (r : VaRange) : VirtualCounts r ↔ 1024 ≤ r.vaEnd - r.vaBegin := by
  rw [VirtualCounts, BitVec.le_def, ← BitVec.toNat_ne_iff_ne, toNat_shr]
  show _ / 1024 ≠ 0 ↔ 1024 ≤ _
  omega

theorem toNat_pageBegin (va : Word) : ((va >>> 12) <<< 12).toNat = va.toNat / 4096 * 4096 := by
  have hva := va.isLt
  rw [BitVec.toNat_shiftLeft, Nat.shiftLeft_eq, toNat_page]
  omega

/-- The range ends behind the beginning of its first page. -/
theorem physicalCounts_iff (r : VaRange) :
    PhysicalCounts r ↔ (r.vaBegin >>> 12) <<< 12 < r.vaEnd := by
  have hend := r.vaEnd.isLt
  have hpageEnd := toNat_page r.vaEnd
  have hlast := toNat_page_succ r.vaEnd
  rw [BitVec.lt_def, toNat_pageBegin]
  constructor
  · rintro ⟨VPN, hlo, hhi, hcount⟩
    rw [BitVec.le_def, toNat_page] at hlo
    rw [BitVec.lt_def, hlast] at hhi
    by_cases hVPN : VPN = r.vaEnd >>> 12
    · have hne : r.vaEnd.toNat ≠ r.vaEnd.toNat / 4096 * 4096 := by
        intro heq
        have hback : r.vaEnd = (r.vaEnd >>> 12) <<< 12 :=
          BitVec.eq_of_toNat_eq (heq.trans (toNat_pageBegin _).symm)
        refine hcount ?_
        rw [memCount, if_pos hVPN, hVPN, ← hback]
        exact BitVec.sub_self _
      rw [hVPN] at hlo
      omega
    · have hne : VPN.toNat ≠ r.vaEnd.toNat / 4096 := by
        intro heq
        exact hVPN (BitVec.eq_of_toNat_eq (heq.trans hpageEnd.symm))
      omega
  · intro hlt
    refine ⟨r.vaBegin >>> 12, BitVec.le_refl _, ?_, ?_⟩
    · rw [BitVec.lt_def, hlast, toNat_page]
      omega
    · unfold memCount
      split_ifs
      · intro hzero
        have hdiff := congrArg BitVec.toNat hzero
        have hnone : (0 : Word).toNat = 0 := rfl
        rw [BitVec.toNat_sub, toNat_pageBegin, hnone] at hdiff
        omega
      · decide

instance : DecidablePred PhysicalCounts := fun r => decidable_of_iff _ (physicalCounts_iff r).symm

/-! ## What is not counted changes nothing -/

theorem allTableSize_filter (ranges : List VaRange) :
    allTableSize (ranges.filter TableCounts) = allTableSize ranges := by
  rw [allTableSize, allTableSize, List.foldlM_filter]
  congr 1
  funext s r
  split_ifs with hcounts
  · rfl
  · have hpages : r.pages = [] := by
      have hcounts : ¬ TableCounts r := by simpa using hcounts
      rw [TableCounts, BitVec.lt_def] at hcounts
      rw [VaRange.pages, Nat.sub_eq_zero_of_le (not_lt.mp hcounts)]
      rfl
    rw [forLoop_pages Levels.page_eq, hpages]
    rfl

theorem virtualSum_filter (ranges : List VaRange) :
    virtualSum (ranges.filter VirtualCounts) = virtualSum ranges := by
  rw [virtualSum, virtualSum, List.foldl_filter]
  congr 1
  funext sum r
  split_ifs with hcounts
  · rfl
  · have hcounts : ¬ VirtualCounts r := by simpa using hcounts
    rw [not_not.mp hcounts]
    exact (BitVec.add_zero sum).symm

/-- A range that does not count leaves the two sums as they are. -/
theorem forLoop_of_not_physicalCounts {pagemap kpagecount : File} (hpm : pagemap.Readable)
    (hkpc : kpagecount.Readable) {r : VaRange} (hcounts : ¬ PhysicalCounts r) (s : MemSums) :
    forLoop (fun VPN => VPN < r.vaEnd >>> 12 + 1) 1 (memUsedPage pagemap kpagecount r.vaEnd)
      rounds (r.vaBegin >>> 12) s = some s := by
  rw [forLoop_through (f := fun s _ => s), List.foldl_fixed]
  intro VPN hlo hhi s
  have hzero : memCount r.vaEnd VPN = 0 := by
    by_contra hne
    exact hcounts ⟨VPN, hlo, hhi, hne⟩
  have hcharge (counted : Word → Bool) (sum : Word) : charge counted r.vaEnd sum VPN = sum := by
    have hsum : charge counted r.vaEnd sum VPN =
        if counted VPN then sum + memCount r.vaEnd VPN else sum := rfl
    rw [hsum, hzero]
    split_ifs
    · exact BitVec.add_zero sum
    · rfl
  rw [memUsedPage_eq hpm hkpc r.vaEnd (toNat_lt_of_page hhi), hcharge, hcharge]

theorem memUsedPhysical_filter {pagemap kpagecount : File} (hpm : pagemap.Readable)
    (hkpc : kpagecount.Readable) (ranges : List VaRange) :
    memUsedPhysical pagemap kpagecount (ranges.filter PhysicalCounts) =
      memUsedPhysical pagemap kpagecount ranges := by
  rw [memUsedPhysical, memUsedPhysical, List.foldlM_filter]
  congr 1
  funext s r
  split_ifs with hcounts
  · rfl
  · exact (forLoop_of_not_physicalCounts hpm hkpc (by simpa using hcounts) s).symm

end Cs342.MemUtils
