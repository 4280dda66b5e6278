import Mathlib.Data.Set.Card
import Cs342.MemUtils.Pagemap

/-!
# Counting the memory in use

The second loop of `mem_used` goes over the pages of each range and one page further, up to
the page in which the range ends. What it adds for that page is the part of it that belongs
to the range, which is nothing as ranges end with a page. So the page that ends one range and
begins the next is counted with the next range only, and as ranges have no page in common
each page is counted once.
-/

namespace Cs342.MemUtils

open Library

structure MemSums where
  totalMemorySum : Word
  exclusiveMemorySum : Word

/-- One page; after a failed read of `/proc/kpagecount` the function returns. -/
def memUsedPage (pagemap kpagecount : File) (addrEnd VPN : Word) (s : MemSums) : Flow MemSums :=
  let pageEndIdx := addrEnd >>> 12
  match pagemap.read (VPN <<< 3).toNat with
  | .error _ => .next s
  | .ok data =>
    let isMapped := (data >>> 63) &&& 1#64
    let pfn := data &&& 0x7FFFFFFFFFFFFF#64
    if isMapped ≠ 0 then
      match kpagecount.read (pfn <<< 3).toNat with
      | .error _ => .exit
      | .ok mapCount =>
        let memCount := if VPN = pageEndIdx then addrEnd - (VPN <<< 12) else 4096
        .next {
          exclusiveMemorySum :=
            if mapCount.toInt = 1 then s.exclusiveMemorySum + memCount else s.exclusiveMemorySum
          totalMemorySum :=
            if mapCount.toInt ≥ 1 then s.totalMemorySum + memCount else s.totalMemorySum }
    else .next s

/-- The second loop of `mem_used`. -/
def memUsedPhysical (pagemap kpagecount : File) (ranges : List VaRange) : Option MemSums :=
  ranges.foldlM (fun s (r : VaRange) =>
    forLoop (fun VPN => VPN < r.vaEnd >>> 12 + 1) 1 (memUsedPage pagemap kpagecount r.vaEnd)
      rounds (r.vaBegin >>> 12) s) ⟨0, 0⟩

/-! ## What is counted -/

/-- How many times the frame of a page is mapped, a signed number. -/
def mapCount (pagemap kpagecount : File) (page : Word) : ℤ :=
  (kpagecount.bytes.uint64 (8 * (frameNumber (entryOf pagemap page)).toNat)).toInt

/-- The page is in memory. -/
def resident (pagemap kpagecount : File) (page : Word) : Bool :=
  present (entryOf pagemap page) && decide (1 ≤ mapCount pagemap kpagecount page)

/-- The page is in memory, and its frame is not shared. -/
def exclusive (pagemap kpagecount : File) (page : Word) : Bool :=
  present (entryOf pagemap page) && decide (mapCount pagemap kpagecount page = 1)

/-- What is added to a sum for a page, if it is counted. -/
def charge (counted : Word → Bool) (addrEnd sum VPN : Word) : Word :=
  if counted VPN then sum + if VPN = addrEnd >>> 12 then addrEnd - (VPN <<< 12) else 4096
  else sum

variable {pagemap kpagecount : File}

theorem toNat_shl {x : Word} (h : x.toNat < 2 ^ 61) : ((x <<< 3).toNat : ℤ) = 8 * x.toNat := by
  rw [BitVec.toNat_shiftLeft, Nat.shiftLeft_eq, Nat.mod_eq_of_lt (by omega)]
  push_cast
  ring

theorem toNat_frameNumber_lt (entry : Word) : (frameNumber entry).toNat < 2 ^ 55 := by
  rw [← and_bitmask]
  exact (toNat_mask entry (show 55 ≤ 64 by decide)).trans_lt (Nat.mod_lt _ (by decide))

theorem isMapped_iff (entry : Word) : (entry >>> 63) &&& 1#64 ≠ 0 ↔ present entry = true :=
  shr_and_one_ne_zero entry 63

/-- One page, when all reads succeed. -/
theorem memUsedPage_eq (hpm : pagemap.Readable) (hkpc : kpagecount.Readable) (addrEnd : Word)
    {VPN : Word} (hVPN : VPN.toNat < 2 ^ 61) (s : MemSums) :
    memUsedPage pagemap kpagecount addrEnd VPN s =
      .next ⟨charge (resident pagemap kpagecount) addrEnd s.totalMemorySum VPN,
        charge (exclusive pagemap kpagecount) addrEnd s.exclusiveMemorySum VPN⟩ := by
  have hpfn := toNat_frameNumber_lt (entryOf pagemap VPN)
  have hread := read_entryOf hpm VPN
  have hcount := toNat_shl (hpfn.trans (by decide))
  simp only [memUsedPage, toNat_shl hVPN, hread, isMapped_iff, and_bitmask, hcount, hkpc.read]
  cases hp : present (entryOf pagemap VPN) with
  | false => simp [charge, resident, exclusive, hp]
  | true =>
    simp only [charge, resident, exclusive, hp, Bool.true_and, decide_eq_true_eq, if_true]
    rfl

/-- Each page counted adds its size, when none of them is the last one. -/
theorem foldl_charge (counted : Word → Bool) {addrEnd : Word} {l : List Word}
    (hl : ∀ p ∈ l, p ≠ addrEnd >>> 12) (sum : Word) :
    l.foldl (charge counted addrEnd) sum = sum + BitVec.ofNat 64 (4096 * l.countP counted) := by
  induction l generalizing sum with
  | nil => simp
  | cons p l ih =>
    have hp := hl p (by simp)
    rw [List.foldl_cons, ih fun q hq => hl q (by simp [hq])]
    cases hcounted : counted p with
    | false => simp [charge, hcounted]
    | true =>
      have hsize : (4096 : Word) = BitVec.ofNat 64 4096 := rfl
      simp only [charge, hcounted, if_true, if_neg hp, List.countP_cons_of_pos, Nat.mul_succ,
        BitVec.ofNat_add, hsize, BitVec.add_assoc]
      rw [BitVec.add_comm (BitVec.ofNat 64 4096)]

/-- The page in which the range ends adds nothing. -/
theorem Vma.charge_end (r : Vma) (counted : Word → Bool) (sum : Word) :
    charge counted r.vaEnd sum (r.vaEnd >>> 12) = sum := by
  have hzero : r.vaEnd - (r.vaEnd >>> 12) <<< 12 = 0 := by
    have haligned := r.end_aligned
    have hend := r.vaEnd.isLt
    have hback : (r.vaEnd >>> 12) <<< 12 = r.vaEnd := by
      apply BitVec.eq_of_toNat_eq
      rw [BitVec.toNat_shiftLeft, Nat.shiftLeft_eq, toNat_page]
      omega
    rw [hback, BitVec.sub_self]
    rfl
  rw [charge, if_pos rfl, hzero]
  simp

/-- The two sums do not depend on each other. -/
theorem foldl_sums (f g : Word → Word → Word) (l : List Word) (s : MemSums) :
    l.foldl (fun s VPN => ⟨f s.totalMemorySum VPN, g s.exclusiveMemorySum VPN⟩) s =
      ⟨l.foldl f s.totalMemorySum, l.foldl g s.exclusiveMemorySum⟩ := by
  induction l generalizing s with
  | nil => rfl
  | cons p l ih => exact ih _

/-- A loop over the pages of a range and the page in which it ends. -/
theorem forLoop_through {σ : Type*} {body : Word → σ → Flow σ} {f : σ → Word → σ} (r : VaRange)
    (hbody : ∀ VPN, r.vaBegin >>> 12 ≤ VPN → VPN < r.vaEnd >>> 12 + 1 →
      ∀ s, body VPN s = .next (f s VPN)) (s : σ) :
    forLoop (fun VPN => VPN < r.vaEnd >>> 12 + 1) 1 body rounds (r.vaBegin >>> 12) s =
      some ((wordRange (r.vaBegin >>> 12).toNat
        ((r.vaEnd >>> 12).toNat + 1 - (r.vaBegin >>> 12).toNat) 1).foldl f s) := by
  have hbegin := r.vaBegin.isLt
  have hend := r.vaEnd.isLt
  have hone : (1 : Word).toNat = 1 := rfl
  have hpageBegin := toNat_page r.vaBegin
  have hpageEnd := toNat_page r.vaEnd
  have hlast := toNat_page_succ r.vaEnd
  apply forLoop_lt
  · intro VPN hVPN
    rw [hone, mem_wordRange (by omega)] at hVPN
    obtain ⟨i, hi, hVPN⟩ := hVPN
    refine hbody VPN ?_ ?_
    · rw [BitVec.le_def]
      omega
    · rw [BitVec.lt_def, hlast]
      omega
  · rw [hone]
    omega
  · rw [rounds]
    omega
  · intro i hi
    rw [hone, hlast]
    omega
  · rw [hone, hlast]
    omega

/-- No page is so far behind that the position of its entry overflows. -/
theorem toNat_lt_of_page {VPN va : Word} (h : VPN < va >>> 12 + 1) : VPN.toNat < 2 ^ 61 := by
  have hva := va.isLt
  have hpage := toNat_page va
  rw [BitVec.lt_def, toNat_page_succ] at h
  omega

/-- The rounds for one range. -/
theorem memUsedVma_eq (hpm : pagemap.Readable) (hkpc : kpagecount.Readable) (r : Vma)
    (s : MemSums) :
    forLoop (fun VPN => VPN < r.vaEnd >>> 12 + 1) 1 (memUsedPage pagemap kpagecount r.vaEnd)
        rounds (r.vaBegin >>> 12) s =
      some ⟨s.totalMemorySum +
          BitVec.ofNat 64 (4096 * r.pages.countP (resident pagemap kpagecount)),
        s.exclusiveMemorySum +
          BitVec.ofNat 64 (4096 * r.pages.countP (exclusive pagemap kpagecount))⟩ := by
  have hle := r.begin_le_end
  have hpageBegin := toNat_page r.vaBegin
  have hpageEnd := toNat_page r.vaEnd
  set n := (r.vaEnd >>> 12).toNat - (r.vaBegin >>> 12).toNat with hn
  have hcount : (r.vaEnd >>> 12).toNat + 1 - (r.vaBegin >>> 12).toNat = n + 1 := by omega
  have hpages : wordRange (r.vaBegin >>> 12).toNat (n + 1) 1 = r.pages ++ [r.vaEnd >>> 12] := by
    have hsum : (r.vaBegin >>> 12).toNat + 1 * n = (r.vaEnd >>> 12).toNat := by omega
    rw [wordRange_concat, hsum, BitVec.ofNat_toNat, BitVec.setWidth_eq, VaRange.pages]
  have hfold (counted : Word → Bool) (sum : Word) :
      (r.pages ++ [r.vaEnd >>> 12]).foldl (charge counted r.vaEnd) sum =
        sum + BitVec.ofNat 64 (4096 * r.pages.countP counted) := by
    rw [List.foldl_append, List.foldl_cons, List.foldl_nil, r.charge_end, foldl_charge]
    intro p hp heq
    have hlt := (VaRange.mem_pages.mp hp).2
    rw [heq, BitVec.lt_def] at hlt
    exact lt_irrefl _ hlt
  rw [forLoop_through (f := fun s VPN =>
    ⟨charge (resident pagemap kpagecount) r.vaEnd s.totalMemorySum VPN,
      charge (exclusive pagemap kpagecount) r.vaEnd s.exclusiveMemorySum VPN⟩)]
  · rw [hcount, hpages, foldl_sums, hfold, hfold]
  · intro VPN _ hVPN
    exact memUsedPage_eq hpm hkpc r.vaEnd (toNat_lt_of_page hVPN)

/-- The loop as a whole. -/
theorem memUsedPhysical_eq (hpm : pagemap.Readable) (hkpc : kpagecount.Readable)
    (ranges : List Vma) :
    let pages := ranges.flatMap fun r => r.pages
    memUsedPhysical pagemap kpagecount (ranges.map Vma.toVaRange) =
      some ⟨BitVec.ofNat 64 (4096 * pages.countP (resident pagemap kpagecount)),
        BitVec.ofNat 64 (4096 * pages.countP (exclusive pagemap kpagecount))⟩ := by
  intro pages
  have hfold (s : MemSums) : ranges.foldl (fun s r =>
      (⟨s.totalMemorySum + BitVec.ofNat 64 (4096 * r.pages.countP (resident pagemap kpagecount)),
        s.exclusiveMemorySum +
          BitVec.ofNat 64 (4096 * r.pages.countP (exclusive pagemap kpagecount))⟩ : MemSums)) s =
      ⟨s.totalMemorySum + BitVec.ofNat 64 (4096 * pages.countP (resident pagemap kpagecount)),
        s.exclusiveMemorySum +
          BitVec.ofNat 64 (4096 * pages.countP (exclusive pagemap kpagecount))⟩ := by
    induction ranges generalizing s with
    | nil => simp [pages]
    | cons r ranges ih =>
      rw [List.foldl_cons, ih]
      simp only [pages, List.flatMap_cons, List.countP_append, Nat.mul_add, BitVec.ofNat_add,
        BitVec.add_assoc]
  rw [memUsedPhysical, List.foldlM_map]
  simp only [memUsedVma_eq hpm hkpc]
  refine List.foldlM_pure.trans (congrArg some ((hfold _).trans ?_))
  simp

/-! ## Ranges without a page in common -/

def VaRange.addresses (r : VaRange) : Set Word := {va | r.vaBegin ≤ va ∧ va < r.vaEnd}

theorem VaRange.nodup_pages (r : VaRange) : r.pages.Nodup := by
  have hbegin := (r.vaBegin >>> 12).isLt
  have hend := (r.vaEnd >>> 12).isLt
  exact nodup_wordRange Nat.one_pos (by omega)

/-- A page of a range begins with one of its addresses. -/
theorem Vma.address_mem (r : Vma) {p : Word} (hp : p ∈ r.pages) : p <<< 12 ∈ r.addresses := by
  have hbegin := r.begin_aligned
  have hend := r.vaEnd.isLt
  rw [VaRange.mem_pages, BitVec.le_def, BitVec.lt_def, toNat_page, toNat_page] at hp
  have haddress : (p <<< 12).toNat = p.toNat * 2 ^ 12 := by
    rw [BitVec.toNat_shiftLeft, Nat.shiftLeft_eq, Nat.mod_eq_of_lt (by omega)]
  rw [VaRange.addresses, Set.mem_ofPred_eq, BitVec.le_def, BitVec.lt_def, haddress]
  omega

theorem nodup_flatMap_pages {ranges : List Vma}
    (h : ranges.Pairwise fun a b => ∀ va ∈ a.addresses, va ∉ b.addresses) :
    (ranges.flatMap fun r => r.pages).Nodup := by
  rw [List.nodup_flatMap]
  refine ⟨fun r _ => r.nodup_pages, h.imp ?_⟩
  intro a b hab p hpa hpb
  exact hab _ (a.address_mem hpa) (b.address_mem hpb)

/-- Pages that differ are too few for the sums to overflow. -/
theorem length_flatMap_pages_lt {ranges : List Vma} (h : (ranges.flatMap fun r => r.pages).Nodup) :
    (ranges.flatMap fun r => r.pages).length < 2 ^ 52 := by
  have hmem : ∀ p ∈ ranges.flatMap fun r => r.pages, p.toNat < 2 ^ 52 - 1 := by
    intro p hp
    obtain ⟨r, -, hp⟩ := List.mem_flatMap.mp hp
    have hend := r.vaEnd.isLt
    have hlt := (VaRange.mem_pages.mp hp).2
    rw [BitVec.lt_def, toNat_page] at hlt
    omega
  have hnodup := h.map fun (p q : Word) => BitVec.eq_of_toNat_eq (x := p) (y := q)
  have hsubperm : ((ranges.flatMap fun r => r.pages).map BitVec.toNat).Subperm
      (List.range (2 ^ 52 - 1)) := by
    refine hnodup.subperm fun n hn => ?_
    obtain ⟨p, hp, rfl⟩ := List.mem_map.mp hn
    exact List.mem_range.mpr (hmem p hp)
  have hlength := hsubperm.length_le
  rw [List.length_map, List.length_range] at hlength
  omega

theorem length_flatMap_pages_le (ranges : List Vma) :
    4096 * (ranges.flatMap fun r => r.pages).length ≤
      (ranges.map fun r => r.vaEnd.toNat - r.vaBegin.toNat).sum := by
  induction ranges with
  | nil => simp
  | cons r ranges ih =>
    have hbegin := r.begin_aligned
    rw [List.flatMap_cons, List.length_append, List.map_cons, List.sum_cons, r.length_pages]
    omega

/-- The members of a list without repetitions that a test accepts. -/
theorem ncard_countP {α : Type*} {l : List α} (hl : l.Nodup) (counted : α → Bool) :
    {x | x ∈ l ∧ counted x = true}.ncard = l.countP counted := by
  classical
  have hset : {x | x ∈ l ∧ counted x = true} = ((l.filter counted).toFinset : Set α) := by
    ext x
    simp
  rw [hset, Set.ncard_coe_finset, List.toFinset_card_of_nodup (hl.filter _),
    List.countP_eq_length_filter]

/-- Each page of disjoint ranges that is in memory is counted once, with its whole size. -/
theorem mem_used_exact (hpm : pagemap.Readable) (hkpc : kpagecount.Readable) {ranges : List Vma}
    (hdisjoint : ranges.Pairwise fun a b => ∀ va ∈ a.addresses, va ∉ b.addresses) :
    let pages : Set Word := {p | ∃ r ∈ ranges, r.vaBegin >>> 12 ≤ p ∧ p < r.vaEnd >>> 12}
    ∃ s, memUsedPhysical pagemap kpagecount (ranges.map Vma.toVaRange) = some s ∧
      s.totalMemorySum.toNat = 4096 * {p | p ∈ pages ∧ present (entryOf pagemap p) = true ∧
        1 ≤ mapCount pagemap kpagecount p}.ncard ∧
      s.exclusiveMemorySum.toNat = 4096 * {p | p ∈ pages ∧ present (entryOf pagemap p) = true ∧
        mapCount pagemap kpagecount p = 1}.ncard ∧
      s.exclusiveMemorySum ≤ s.totalMemorySum ∧
      s.totalMemorySum.toNat ≤ (ranges.map fun r => r.vaEnd.toNat - r.vaBegin.toNat).sum := by
  intro pages
  have hnodup := nodup_flatMap_pages hdisjoint
  have hfew := length_flatMap_pages_lt hnodup
  have hsize := length_flatMap_pages_le ranges
  have hpages (p : Word) : (p ∈ ranges.flatMap fun r => r.pages) ↔ p ∈ pages := by
    simp [pages, List.mem_flatMap, VaRange.mem_pages]
  have hsum := memUsedPhysical_eq hpm hkpc ranges
  generalize (ranges.flatMap fun r => r.pages) = l at hnodup hfew hsize hpages hsum
  have hvalue (counted : Word → Bool) :
      (BitVec.ofNat 64 (4096 * l.countP counted)).toNat = 4096 * l.countP counted := by
    have := List.countP_le_length (p := counted) (l := l)
    rw [BitVec.toNat_ofNat, Nat.mod_eq_of_lt (by omega)]
  have hle : l.countP (exclusive pagemap kpagecount) ≤ l.countP (resident pagemap kpagecount) := by
    refine List.countP_mono_left fun p _ hp => ?_
    simp only [exclusive, resident, Bool.and_eq_true, decide_eq_true_eq] at hp ⊢
    exact ⟨hp.1, hp.2.ge⟩
  refine ⟨_, hsum, ?_, ?_, ?_, ?_⟩
  · rw [hvalue, ← ncard_countP hnodup]
    simp only [hpages, resident, Bool.and_eq_true, decide_eq_true_eq]
  · rw [hvalue, ← ncard_countP hnodup]
    simp only [hpages, exclusive, Bool.and_eq_true, decide_eq_true_eq]
  · rw [BitVec.le_def, hvalue, hvalue]
    omega
  · have := List.countP_le_length (p := resident pagemap kpagecount) (l := l)
    rw [hvalue]
    omega

/-- The two pages behind the one of `oneVma`. -/
def nextVma : Vma where
  vaBegin := oneVma.vaEnd
  vaEnd := 0x403000
  begin_le_end := by decide
  begin_aligned := oneVma.end_aligned
  end_aligned := by decide

theorem disjoint_nextVma : ∀ va ∈ oneVma.addresses, va ∉ nextVma.addresses := by
  rintro va ⟨-, hend⟩ ⟨hbegin, -⟩
  exact BitVec.not_lt.mpr hbegin hend

/-- Frame 5 is mapped once. -/
def frameFive : File where
  bytes a := if a = 40 then byte 1 else nul
  fault _ := none

theorem mem_used_exact_onePage :
    let ranges := [oneVma, nextVma]
    let pages : Set Word := {p | ∃ r ∈ ranges, r.vaBegin >>> 12 ≤ p ∧ p < r.vaEnd >>> 12}
    ∃ s, memUsedPhysical onePage frameFive (ranges.map Vma.toVaRange) = some s ∧
      s.totalMemorySum.toNat = 4096 * {p | p ∈ pages ∧ present (entryOf onePage p) = true ∧
        1 ≤ mapCount onePage frameFive p}.ncard ∧
      s.exclusiveMemorySum.toNat = 4096 * {p | p ∈ pages ∧ present (entryOf onePage p) = true ∧
        mapCount onePage frameFive p = 1}.ncard ∧
      s.exclusiveMemorySum ≤ s.totalMemorySum ∧
      s.totalMemorySum.toNat ≤ (ranges.map fun r => r.vaEnd.toNat - r.vaBegin.toNat).sum :=
  mem_used_exact (fun _ => rfl) (fun _ => rfl) (List.pairwise_pair.mpr disjoint_nextVma)

end Cs342.MemUtils
