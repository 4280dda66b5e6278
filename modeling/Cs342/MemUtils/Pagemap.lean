import Cs342.Library.Words

/-!
# Reading the pagemap (mem_utils.c)

`/proc/pid/pagemap` holds one 64-bit entry per virtual page, the entry of page `v` at
byte `8 * v`. `map` lists the pages of all ranges in `/proc/pid/maps`, `map_va` and `pte`
look up one address. The first seeks to the entry of a page; the other two seek to the
byte whose offset is the page number, and what they show is what `map` shows for the same
page only when the eight bytes there happen to be those of the entry.

The ranges are taken as they come out of `sscanf`; opening the files is taken to succeed,
and so are the seeks, whose offsets are never negative. What is printed is a list of
lines, one constructor for each format string.
-/

namespace Cs342.MemUtils

open Library

/-! ## Ranges and pages -/

/-- A line of `/proc/pid/maps`, as parsed. -/
structure VaRange where
  vaBegin : Word
  vaEnd : Word
  deriving DecidableEq, Repr

/-- A virtual memory area as the kernel lists it: whole pages. -/
structure Vma extends VaRange where
  begin_le_end : vaBegin.toNat ≤ vaEnd.toNat
  begin_aligned : vaBegin.toNat % 4096 = 0
  end_aligned : vaEnd.toNat % 4096 = 0

/-- The page number of an address. -/
theorem toNat_page (va : Word) : (va >>> 12).toNat = va.toNat / 4096 := toNat_shr va 12

theorem toNat_page_succ (va : Word) : (va >>> 12 + 1).toNat = (va >>> 12).toNat + 1 := by
  have hva := va.isLt
  have hpage := toNat_page va
  have hone : (1 : Word).toNat = 1 := rfl
  rw [BitVec.toNat_add, hone]
  omega

/-- The numbers of the pages in the range, in ascending order. -/
def VaRange.pages (r : VaRange) : List Word :=
  wordRange (r.vaBegin >>> 12).toNat ((r.vaEnd >>> 12).toNat - (r.vaBegin >>> 12).toNat) 1

theorem VaRange.length_pages (r : VaRange) :
    r.pages.length = r.vaEnd.toNat / 4096 - r.vaBegin.toNat / 4096 := by
  rw [pages, wordRange, List.length_map, List.length_range, toNat_page, toNat_page]

theorem VaRange.mem_pages {r : VaRange} {p : Word} :
    p ∈ r.pages ↔ r.vaBegin >>> 12 ≤ p ∧ p < r.vaEnd >>> 12 := by
  have hbegin := (r.vaBegin >>> 12).isLt
  have hend := (r.vaEnd >>> 12).isLt
  rw [pages, mem_wordRange (by omega), BitVec.le_def, BitVec.lt_def]
  constructor
  · rintro ⟨i, hi, hp⟩
    omega
  · rintro ⟨hlo, hhi⟩
    exact ⟨p.toNat - (r.vaBegin >>> 12).toNat, by omega, by omega⟩

theorem VaRange.sorted_pages (r : VaRange) : r.pages.Pairwise (· < ·) := by
  have hbegin := (r.vaBegin >>> 12).isLt
  have hend := (r.vaEnd >>> 12).isLt
  exact sorted_wordRange Nat.one_pos (by omega)

/-- The number of rounds after which a counter that steps by pages has taken every value. -/
def rounds : ℕ := 2 ^ 52 + 1

/-! ## Entries -/

/-- Bit 63 of an entry: the page is present. -/
def present (entry : Word) : Bool := entry.getLsbD 63

/-- Bits 0-54 of an entry: the frame number. -/
def frameNumber (entry : Word) : Word := (entry.extractLsb' 0 55).setWidth 64

theorem and_present (entry : Word) : entry &&& 1#64 <<< 63 ≠ 0 ↔ present entry = true :=
  and_bit_ne_zero entry (by decide)

theorem and_bitmask (entry : Word) : entry &&& 0x7FFFFFFFFFFFFF#64 = frameNumber entry :=
  mask_eq_extract entry (show 55 ≤ 64 by decide)

theorem and_lowBits (entry : Word) : entry &&& ((1#64 <<< 55) - 1) = frameNumber entry :=
  and_bitmask entry

/-- The entry of a page. -/
def entryOf (pagemap : File) (page : Word) : Word := pagemap.bytes.uint64 (8 * page.toNat)

theorem read_entryOf {pagemap : File} (h : pagemap.Readable) (page : Word) :
    pagemap.read (8 * page.toNat) = .ok (entryOf pagemap page) :=
  h.read _

/-! ## map -/

inductive MapLine where
  | frame (page frame : Word)
  | notInMemory (page : Word)
  | fault (reason : Fault)
  deriving DecidableEq, Repr

/-- `getpagesize()`. -/
def pageSize : Word := 4096

@[simp] theorem toNat_pageSize : pageSize.toNat = 4096 := rfl

/-- What `map` does for the page at `va1`, after the lines printed so far. -/
def mapPage (pagemap : File) (inMem : ℤ) (va1 : Word) (printed : List MapLine) :
    Flow (List MapLine) :=
  match pagemap.read (va1 / pageSize * 8).toNat with
  | .error reason => .stop (printed ++ [.fault reason])
  | .ok pagemapEntry =>
    if pagemapEntry &&& 1#64 <<< 63 ≠ 0 then
      .next (printed ++ [.frame (va1 / pageSize) (pagemapEntry &&& 0x7FFFFFFFFFFFFF#64)])
    else if inMem = 0 then .next (printed ++ [.notInMemory (va1 / pageSize)])
    else .next printed

/-- The lines printed for the ranges, if the loop over each of them ends. -/
def map (pagemap : File) (inMem : ℤ) (ranges : List VaRange) : Option (List MapLine) :=
  ranges.foldlM (fun printed r =>
    forLoop (fun va1 => va1 < r.vaEnd) pageSize (mapPage pagemap inMem) rounds r.vaBegin printed) []

/-- What `map` prints for a page. -/
def pageLines (pagemap : File) (inMem : ℤ) (page : Word) : List MapLine :=
  if present (entryOf pagemap page) then [.frame page (frameNumber (entryOf pagemap page))]
  else if inMem = 0 then [.notInMemory page] else []

variable {pagemap : File} {inMem : ℤ}

theorem mapPage_eq (h : pagemap.Readable) (va1 : Word) (printed : List MapLine) :
    mapPage pagemap inMem va1 printed =
      .next (printed ++ pageLines pagemap inMem (va1 / pageSize)) := by
  have hoffset : ((va1 / pageSize * 8).toNat : ℤ) = 8 * (va1 / pageSize).toNat := by
    have height : (8 : Word).toNat = 8 := rfl
    have := va1.isLt
    rw [BitVec.toNat_mul, BitVec.toNat_udiv, toNat_pageSize, height]
    omega
  simp only [mapPage, hoffset, read_entryOf h, and_present, and_bitmask, pageLines]
  split_ifs
  · rfl
  · rfl
  · rw [List.append_nil]

/-- The counter of `map` steps through the addresses of the pages. -/
theorem Vma.addresses_div (r : Vma) (n : ℕ) (hn : r.vaBegin.toNat + 4096 * n = r.vaEnd.toNat) :
    (wordRange r.vaBegin.toNat n 4096).map (· / pageSize) = r.pages := by
  have hend := r.vaEnd.isLt
  have hbegin := r.begin_aligned
  have hpages : (r.vaEnd >>> 12).toNat - (r.vaBegin >>> 12).toNat = n := by
    rw [toNat_page, toNat_page]
    omega
  rw [VaRange.pages, hpages, wordRange, wordRange, List.map_map]
  refine List.map_congr_left fun i hi => ?_
  have hi : i < n := List.mem_range.mp hi
  apply BitVec.eq_of_toNat_eq
  simp only [Function.comp_apply, BitVec.toNat_udiv, BitVec.toNat_ofNat, toNat_pageSize, toNat_page]
  omega

theorem mapVma_eq (h : pagemap.Readable) (r : Vma) (printed : List MapLine) :
    forLoop (fun va1 => va1 < r.vaEnd) pageSize (mapPage pagemap inMem) rounds r.vaBegin printed =
      some (printed ++ r.pages.flatMap (pageLines pagemap inMem)) := by
  obtain ⟨n, hn⟩ : ∃ n, r.vaBegin.toNat + 4096 * n = r.vaEnd.toNat := by
    have := r.begin_le_end
    have := r.begin_aligned
    have := r.end_aligned
    exact ⟨(r.vaEnd.toNat - r.vaBegin.toNat) / 4096, by omega⟩
  have hend := r.vaEnd.isLt
  rw [forLoop_lt (fun va1 _ => mapPage_eq h va1) (n := n)]
  · rw [toNat_pageSize, List.foldl_append_eq_append, ← r.addresses_div n hn, List.flatMap_map,
      List.flatMap_def]
  · rw [toNat_pageSize]
    omega
  · rw [rounds]
    omega
  · intro i hi
    rw [toNat_pageSize]
    omega
  · rw [toNat_pageSize]
    omega

/-- `map` ends, and prints for each page of each range what its own entry says. -/
theorem map_eq (h : pagemap.Readable) (ranges : List Vma) :
    map pagemap inMem (ranges.map Vma.toVaRange) =
      some (ranges.flatMap fun r => r.pages.flatMap (pageLines pagemap inMem)) := by
  rw [map, List.foldlM_map]
  simp only [mapVma_eq h]
  refine List.foldlM_pure.trans (congrArg some ?_)
  rw [List.foldl_append_eq_append, List.nil_append, List.flatMap_def]

theorem eq_of_mem_pageLines {page : Word} {line : MapLine}
    (h : line ∈ pageLines pagemap inMem page) :
    line = .frame page (frameNumber (entryOf pagemap page)) ∨ line = .notInMemory page := by
  unfold pageLines at h
  split_ifs at h <;> simp_all

/-- The line that a page should have in a listing of all pages. -/
def pageLine (pagemap : File) (page : Word) : MapLine :=
  if present (entryOf pagemap page) then .frame page (frameNumber (entryOf pagemap page))
  else .notInMemory page

/-- Lines of pages in memory. -/
def MapLine.inMemory : MapLine → Bool
  | .frame _ _ => true
  | _ => false

theorem pageLines_zero : pageLines pagemap 0 = fun page => [pageLine pagemap page] := by
  funext page
  cases hp : present (entryOf pagemap page) <;> simp [pageLines, pageLine, hp]

/-- In the other mode a page has its line if that is one of a page in memory. -/
theorem pageLines_one :
    pageLines pagemap 1 = fun page => [pageLine pagemap page].filter MapLine.inMemory := by
  funext page
  cases hp : present (entryOf pagemap page) <;>
    simp [pageLines, pageLine, MapLine.inMemory, hp, List.filter_cons]

/-- `map` ends in either mode. In mode 0 it prints one line for each page of each range, in
ascending order, and in mode 1 those of these lines that are of pages in memory. -/
theorem map_listings (h : pagemap.Readable) (ranges : List Vma) :
    (∀ r ∈ ranges, r.pages.Pairwise (· < ·) ∧
      ∀ page, page ∈ r.pages ↔ r.vaBegin >>> 12 ≤ page ∧ page < r.vaEnd >>> 12) ∧
    ∃ all, map pagemap 0 (ranges.map Vma.toVaRange) = some all ∧
      all = ranges.flatMap (fun r => r.pages.map (pageLine pagemap)) ∧
      map pagemap 1 (ranges.map Vma.toVaRange) = some (all.filter MapLine.inMemory) := by
  refine ⟨fun r _ => ⟨r.sorted_pages, fun page => VaRange.mem_pages⟩, _, map_eq h ranges, ?_, ?_⟩
  · simp only [pageLines_zero, List.map_eq_flatMap]
  · rw [map_eq h, pageLines_zero, pageLines_one, List.filter_flatMap]
    simp only [List.filter_flatMap]

/-- One page is mapped, page `0x400`, to frame 5. -/
def onePage : File where
  bytes a := if a = 0x2000 then byte 5 else if a = 0x2007 then byte 0x80 else nul
  fault _ := none

def oneVma : Vma where
  vaBegin := 0x400000
  vaEnd := 0x401000
  begin_le_end := by decide
  begin_aligned := by decide
  end_aligned := by decide

/-- The two pages below the last one of the address space. -/
def topVma : Vma where
  vaBegin := 0xffffffffffffd000
  vaEnd := 0xfffffffffffff000
  begin_le_end := by decide
  begin_aligned := by decide
  end_aligned := by decide

theorem map_listings_onePage :
    (∀ r ∈ [oneVma, topVma], r.pages.Pairwise (· < ·) ∧
      ∀ page, page ∈ r.pages ↔ r.vaBegin >>> 12 ≤ page ∧ page < r.vaEnd >>> 12) ∧
    ∃ all, map onePage 0 ([oneVma, topVma].map Vma.toVaRange) = some all ∧
      all = [oneVma, topVma].flatMap (fun r => r.pages.map (pageLine onePage)) ∧
      map onePage 1 ([oneVma, topVma].map Vma.toVaRange) = some (all.filter MapLine.inMemory) :=
  map_listings (fun _ => rfl) [oneVma, topVma]

example : map onePage 0 ([oneVma, topVma].map Vma.toVaRange) =
    some [.frame 0x400 5, .notInMemory 0xffffffffffffd, .notInMemory 0xffffffffffffe] := by
  decide +kernel

/-- What `map` lists for a page of one of the ranges. -/
theorem mem_map_iff (h : pagemap.Readable) {ranges : List Vma} {r : Vma} (hr : r ∈ ranges)
    {page : Word} (hpage : page ∈ r.pages) {lines : List MapLine}
    (hlines : map pagemap 0 (ranges.map Vma.toVaRange) = some lines) :
    (.notInMemory page ∈ lines ↔ present (entryOf pagemap page) = false) ∧
      ∀ frame, .frame page frame ∈ lines ↔
        present (entryOf pagemap page) = true ∧ frame = frameNumber (entryOf pagemap page) := by
  rw [map_eq h] at hlines
  obtain rfl := Option.some.inj hlines
  have hmem (line : MapLine) (hline : ∀ p, line ∈ pageLines pagemap 0 p → p = page) :
      line ∈ (ranges.flatMap fun r => r.pages.flatMap (pageLines pagemap 0)) ↔
        line ∈ pageLines pagemap 0 page := by
    simp only [List.mem_flatMap]
    constructor
    · rintro ⟨-, -, p, -, hp⟩
      exact hline p hp ▸ hp
    · intro hp
      exact ⟨r, hr, page, hpage, hp⟩
  constructor
  · rw [hmem]
    · cases hp : present (entryOf pagemap page) <;> simp [pageLines, hp]
    · intro p hp
      obtain heq | heq := eq_of_mem_pageLines hp
      · cases heq
      · cases heq
        rfl
  · intro frame
    rw [hmem]
    · cases hp : present (entryOf pagemap page) <;> simp [pageLines, hp]
    · intro p hp
      obtain heq | heq := eq_of_mem_pageLines hp
      · cases heq
        rfl
      · cases heq

/-! ## map_va and pte -/

inductive VaLine where
  | frame (frame : Word)
  | notInMemory
  deriving DecidableEq, Repr

/-- `entry` is whatever the stack held if the read fails. -/
def mapVa (pagemap : File) (entry : Word) (va : Word) : VaLine :=
  let vpn := va >>> 12
  let entry := pagemap.readInto entry vpn.toNat
  if entry &&& 1#64 <<< 63 ≠ 0 then .frame (entry &&& ((1#64 <<< 55) - 1)) else .notInMemory

inductive PteEvent where
  | separator
  | inMemory (va : Word)
  | swapped (va : Word)
  | swapOffset (offset : Word)
  | notSwapped (va : Word)
  | frame (frame : Word)
  | notInMemory (va : Word)
  | close
  deriving DecidableEq, Repr

/-- The entry that `pte` has read, and what it does. -/
def pte (pagemap : File) (entry : Word) (va : Word) : Word × List PteEvent :=
  let vpn := va >>> 12
  let entry := pagemap.readInto entry vpn.toNat
  let events :=
    if entry &&& 1#64 <<< 63 ≠ 0 then
      let frameNumber := entry &&& ((1#64 <<< 55) - 1)
      .inMemory va ::
        if entry &&& 1#64 <<< 62 ≠ 0 then [.swapped va, .swapOffset frameNumber]
        else [.notSwapped va, .frame frameNumber]
    else [.notInMemory va, .separator, .close]
  (entry, .separator :: events ++ [.separator])

/-- The word at the byte offset where `map_va` and `pte` look. -/
def entrySeen (pagemap : File) (page : Word) : Word := pagemap.bytes.uint64 page.toNat

theorem mapVa_eq (h : pagemap.Readable) (entry va : Word) :
    mapVa pagemap entry va =
      if present (entrySeen pagemap (va >>> 12)) then
        .frame (frameNumber (entrySeen pagemap (va >>> 12)))
      else .notInMemory := by
  simp only [mapVa, h.readInto, and_present, and_lowBits]
  rfl

/-- `map_va` shows of an address what `map` has listed of its page, and `pte` reads the entry
of that page. -/
def Agree (pagemap : File) (entry : Word) (lines : List MapLine) (va : Word) : Prop :=
  (mapVa pagemap entry va = .notInMemory ↔ .notInMemory (va >>> 12) ∈ lines) ∧
    (∀ frame, mapVa pagemap entry va = .frame frame ↔ .frame (va >>> 12) frame ∈ lines) ∧
    (pte pagemap entry va).1 = entryOf pagemap (va >>> 12)

/-- The page of an address in a range is one of its pages. -/
theorem Vma.page_mem (r : Vma) {va : Word} (hbegin : r.vaBegin ≤ va) (hend : va < r.vaEnd) :
    va >>> 12 ∈ r.pages := by
  rw [VaRange.mem_pages]
  have haligned := r.end_aligned
  rw [BitVec.le_def] at hbegin ⊢
  rw [BitVec.lt_def] at hend ⊢
  rw [toNat_page, toNat_page]
  rw [toNat_page]
  omega

/-- The lookups agree exactly when the eight bytes at offset `va >> 12` are those of the entry
of the page, at offset `8 * (va >> 12)`. -/
theorem lookups_agree_iff (h : pagemap.Readable) (entry : Word) {ranges : List Vma} {r : Vma}
    (hr : r ∈ ranges) {va : Word} (hbegin : r.vaBegin ≤ va) (hend : va < r.vaEnd) :
    ∃ lines, map pagemap 0 (ranges.map Vma.toVaRange) = some lines ∧
      (Agree pagemap entry lines va ↔ pagemap.bytes.uint64 (va >>> 12).toNat =
        pagemap.bytes.uint64 (8 * (va >>> 12).toNat)) := by
  refine ⟨_, map_eq h ranges, ?_⟩
  obtain ⟨hnot, hframe⟩ := mem_map_iff h hr (r.page_mem hbegin hend) (map_eq h ranges)
  have hread : (pte pagemap entry va).1 = entrySeen pagemap (va >>> 12) := h.readInto _ _
  rw [Agree, hread, hnot, mapVa_eq h]
  constructor
  · rintro ⟨-, -, heq⟩
    exact heq
  · intro heq
    replace heq : entrySeen pagemap (va >>> 12) = entryOf pagemap (va >>> 12) := heq
    simp only [hframe, heq, and_true]
    cases present (entryOf pagemap (va >>> 12)) <;> simp [eq_comm]

theorem lookups_agree_iff_onePage :
    ∃ lines, map onePage 0 ([oneVma].map Vma.toVaRange) = some lines ∧
      (Agree onePage 0 lines 0x400123 ↔ onePage.bytes.uint64 ((0x400123 : Word) >>> 12).toNat =
        onePage.bytes.uint64 (8 * ((0x400123 : Word) >>> 12).toNat)) :=
  lookups_agree_iff (fun _ => rfl) 0 (List.mem_singleton_self oneVma) (by decide) (by decide)

/-- `map` lists page `0x400` with its frame, and `map_va` does not find it in memory. -/
theorem lookups_disagree :
    map onePage 0 ([oneVma].map Vma.toVaRange) = some [.frame 0x400 5] ∧
      mapVa onePage 0 0x400000 = .notInMemory ∧
      ¬ Agree onePage 0 [.frame 0x400 5] 0x400000 := by
  have hmapVa : mapVa onePage 0 0x400000 = .notInMemory := by decide +kernel
  refine ⟨by decide +kernel, hmapVa, fun h => ?_⟩
  simpa using h.1.mp hmapVa

/-! ## What pte tells of an entry -/

/-- Bit 62 of an entry: the page is swapped out. -/
def swapped (entry : Word) : Bool := entry.getLsbD 62

/-- Bits 5-54 of an entry: the offset in the swap area. -/
def swapOffset (entry : Word) : Word := (entry.extractLsb' 5 50).setWidth 64

/-- The frame number is printed of a page in memory and the swap offset of one that is swapped
out, and the descriptor is closed once. -/
structure Classifies (entry : Word) (events : List PteEvent) : Prop where
  frame : ∀ frame, .frame frame ∈ events ↔
    present entry = true ∧ swapped entry = false ∧ frame = frameNumber entry
  offset : ∀ offset, .swapOffset offset ∈ events ↔
    swapped entry = true ∧ offset = swapOffset entry
  closed : events.count .close = 1

theorem pte_events (pagemap : File) (entry va : Word) :
    (pte pagemap entry va).2 =
      let read := pagemap.readInto entry (va >>> 12).toNat
      if present read then
        if swapped read then
          [.separator, .inMemory va, .swapped va, .swapOffset (frameNumber read), .separator]
        else [.separator, .inMemory va, .notSwapped va, .frame (frameNumber read), .separator]
      else [.separator, .notInMemory va, .separator, .close, .separator] := by
  have hswapped (x : Word) : x &&& 1#64 <<< 62 ≠ 0 ↔ swapped x = true :=
    and_bit_ne_zero x (by decide)
  simp only [pte, and_present, and_lowBits, hswapped]
  split_ifs <;> rfl

/-- `pte` tells of the entry of a page what it should exactly when that is neither present nor
swapped out and the word that it reads instead is not present either. -/
theorem pte_classifies_iff (pagemap : File) (entry va : Word) :
    Classifies (entryOf pagemap (va >>> 12)) (pte pagemap entry va).2 ↔
      present (entryOf pagemap (va >>> 12)) = false ∧
        swapped (entryOf pagemap (va >>> 12)) = false ∧
        present (pagemap.readInto entry (va >>> 12).toNat) = false := by
  rw [pte_events]
  cases hread : present (pagemap.readInto entry (va >>> 12).toNat) with
  | true =>
    -- on this path the descriptor stays open
    refine iff_of_false (fun h => ?_) (by simp)
    have hclosed := h.closed
    simp only [hread, if_true] at hclosed
    split_ifs at hclosed <;> simp at hclosed
  | false =>
    simp only [hread, Bool.false_eq_true, if_false, and_true]
    constructor
    · intro h
      have hswapped : swapped (entryOf pagemap (va >>> 12)) = false := by
        by_contra hne
        simpa using (h.offset _).mpr ⟨Bool.not_eq_false _ ▸ hne, rfl⟩
      refine ⟨?_, hswapped⟩
      by_contra hne
      simpa using (h.frame _).mpr ⟨Bool.not_eq_false _ ▸ hne, hswapped, rfl⟩
    · rintro ⟨hpresent, hswapped⟩
      exact {
        frame := by simp [hpresent]
        offset := by simp [hswapped]
        closed := by simp }

/-- Every byte of the file is this one. -/
def filled (b : ℕ) : File where
  bytes _ := byte b
  fault _ := none

/-- A present page is not found, as the entry is looked for in another place; where it does not
matter what is read, a swapped-out page is not recognised, and after a page in memory the
descriptor is left open. -/
theorem pte_misclassifies :
    (pte onePage 0 0x400000).2 =
        [.separator, .notInMemory 0x400000, .separator, .close, .separator] ∧
      present (entryOf onePage 0x400) = true ∧
      ¬ Classifies (entryOf onePage 0x400) (pte onePage 0 0x400000).2 ∧
      swapped (entryOf (filled 0x40) 0x400) = true ∧
      ¬ Classifies (entryOf (filled 0x40) 0x400) (pte (filled 0x40) 0 0x400000).2 ∧
      present (entryOf (filled 0x80) 0x400) = true ∧
      ¬ Classifies (entryOf (filled 0x80) 0x400) (pte (filled 0x80) 0 0x400000).2 := by
  have hpresent : present (entryOf onePage 0x400) = true := by decide +kernel
  have hswapped : swapped (entryOf (filled 0x40) 0x400) = true := by decide +kernel
  have hfilled : present (entryOf (filled 0x80) 0x400) = true := by decide +kernel
  refine ⟨by decide +kernel, hpresent, fun h => ?_, hswapped, fun h => ?_, hfilled, fun h => ?_⟩
  · have := (h.frame (frameNumber (entryOf onePage 0x400))).mpr
      ⟨hpresent, by decide +kernel, rfl⟩
    exact absurd this (by decide +kernel)
  · have := (h.offset (swapOffset (entryOf (filled 0x40) 0x400))).mpr ⟨hswapped, rfl⟩
    exact absurd this (by decide +kernel)
  · exact absurd h.closed (by decide +kernel)

end Cs342.MemUtils
