import Cs342.MemUtils.Pagemap

/-!
# Mapping a range

`map_range` seeks once, to the byte whose offset is the number of the first page, and then
reads entry after entry while its counter goes on by sixteen pages and stops behind the end
of the range. Its lines are those of the pages of the range for a range of one page only,
if what it reads first looks like the entry of the page.
-/

namespace Cs342.MemUtils

open Library

inductive RangeLine where
  | separator
  | counter (i : Word)
  | frame (page frame : Word)
  | unused (page : Word)
  deriving DecidableEq, Repr

/-- The line of a page. -/
def rangeLine (page entry : Word) : RangeLine :=
  if entry &&& 1#64 <<< 63 ≠ 0 then .frame page (entry &&& ((1#64 <<< 55) - 1)) else .unused page

/-- Between two rounds: the file offset, the variable read into, and what has been printed. -/
structure RangeState where
  offset : ℤ
  entry : Word
  printed : List RangeLine

def mapRangeRound (pagemap : File) (s : RangeState) (i : Word) : RangeState :=
  let entry := pagemap.readInto s.entry s.offset
  let offset := match pagemap.read s.offset with
    | .ok _ => s.offset + 8
    | .error _ => s.offset
  ⟨offset, entry, s.printed ++ [.counter i, rangeLine i entry]⟩

def mapRange (pagemap : File) (entry vaBegin vaEnd : Word) : Option (List RangeLine) :=
  let startVpn := vaBegin >>> 12
  let endVpn := vaEnd >>> 12
  (forLoop (fun i => i ≤ endVpn) 16 (fun i s => .next (mapRangeRound pagemap s i)) rounds startVpn
    ⟨startVpn.toNat, entry, [.separator]⟩).map fun s => s.printed ++ [.separator]

/-- A line with the number of a page. -/
def RangeLine.showsPage : RangeLine → Bool
  | .separator | .counter _ => false
  | .frame _ _ | .unused _ => true

/-- One line for each page of the range in ascending order and none for another page, with the
frame of the page's own entry. -/
def ShowsPages (pagemap : File) (r : Vma) (lines : List RangeLine) : Prop :=
  lines.filter RangeLine.showsPage = r.pages.map fun page =>
    if present (entryOf pagemap page) then .frame page (frameNumber (entryOf pagemap page))
    else .unused page

variable {pagemap : File} {r : Vma}

theorem rangeLine_eq (page entry : Word) :
    rangeLine page entry =
      if present entry then .frame page (frameNumber entry) else .unused page := by
  simp only [rangeLine, and_present, and_lowBits]

theorem showsPage_rangeLine (page entry : Word) : (rangeLine page entry).showsPage = true := by
  rw [rangeLine]
  split_ifs <;> rfl

/-- The lines of a page for two entries are the same if the entries show the same. -/
theorem rangeLine_eq_iff (page x y : Word) : rangeLine page x = rangeLine page y ↔
    present x = present y ∧ (present y = true → frameNumber x = frameNumber y) := by
  rw [rangeLine_eq, rangeLine_eq]
  cases present x <;> cases present y <;> simp

/-- Each round reads the next eight bytes. -/
theorem foldl_mapRangeRound (h : pagemap.Readable) (a n : ℕ) (s : RangeState) :
    ((wordRange a n 16).foldl (mapRangeRound pagemap) s).printed =
      s.printed ++ (List.range n).flatMap fun j =>
        [.counter (BitVec.ofNat 64 (a + 16 * j)),
          rangeLine (BitVec.ofNat 64 (a + 16 * j)) (pagemap.bytes.uint64 (s.offset + 8 * j))] := by
  induction n generalizing a s with
  | zero => simp [wordRange]
  | succ n ih =>
    have hcounter (j : ℕ) : a + 16 + 16 * j = a + 16 * (j + 1) := by ring
    have hoffset (j : ℕ) : s.offset + 8 + 8 * (j : ℤ) = s.offset + 8 * ((j : ℤ) + 1) := by ring
    rw [wordRange_succ, List.foldl_cons, ih]
    simp only [mapRangeRound, h.readInto, h.read, hcounter, hoffset, List.range_succ_eq_map,
      List.flatMap_cons, List.flatMap_map]
    simp

/-- The lines of `map_range`, without the separators and the counters. -/
theorem mapRange_filter (h : pagemap.Readable) (entry : Word) (r : Vma) :
    ∃ lines, mapRange pagemap entry r.vaBegin r.vaEnd = some lines ∧
      lines.filter RangeLine.showsPage = (List.range (r.pages.length / 16 + 1)).map fun j =>
        rangeLine (BitVec.ofNat 64 ((r.vaBegin >>> 12).toNat + 16 * j))
          (pagemap.bytes.uint64 ((r.vaBegin >>> 12).toNat + 8 * j)) := by
  have hend : (r.vaEnd >>> 12).toNat < 2 ^ 52 := by
    have := r.vaEnd.isLt
    rw [toNat_page]
    omega
  have hle : (r.vaBegin >>> 12).toNat ≤ (r.vaEnd >>> 12).toNat := by
    have := r.begin_le_end
    rw [toNat_page, toNat_page]
    omega
  have hlength : r.pages.length = (r.vaEnd >>> 12).toNat - (r.vaBegin >>> 12).toNat := by
    rw [r.length_pages, toNat_page, toNat_page]
  have hsixteen : (16 : Word).toNat = 16 := rfl
  have hloop (s : RangeState) :
      forLoop (fun i => i ≤ r.vaEnd >>> 12) 16 (fun i s => .next (mapRangeRound pagemap s i)) rounds
        (r.vaBegin >>> 12) s =
      some ((wordRange (r.vaBegin >>> 12).toNat (r.pages.length / 16 + 1) 16).foldl
        (mapRangeRound pagemap) s) := by
    apply forLoop_eq_foldl
    · exact fun _ _ _ => rfl
    · rw [hsixteen]
      omega
    · rw [rounds]
      omega
    · intro i hi
      rw [hsixteen, decide_eq_true_eq, BitVec.le_def, BitVec.toNat_ofNat]
      omega
    · rw [hsixteen, decide_eq_false_iff_not, BitVec.le_def, BitVec.toNat_ofNat]
      omega
  have hround (page entry : Word) :
      [.counter page, rangeLine page entry].filter RangeLine.showsPage = [rangeLine page entry] := by
    have hcounter : (RangeLine.counter page).showsPage = false := rfl
    simp [hcounter, showsPage_rangeLine]
  refine ⟨_, by rw [mapRange, hloop, Option.map_some], ?_⟩
  rw [foldl_mapRangeRound h]
  simp only [List.filter_append, List.filter_flatMap, hround, ← List.map_eq_flatMap]
  simp [RangeLine.showsPage]

/-- `map_range` shows the pages of the range, one line each, exactly when there is one page only
and what is read at the byte offset of its number looks like its entry. -/
theorem map_range_iff (h : pagemap.Readable) (entry : Word) (r : Vma) :
    ∃ lines, mapRange pagemap entry r.vaBegin r.vaEnd = some lines ∧
      (ShowsPages pagemap r lines ↔ r.vaEnd.toNat = r.vaBegin.toNat + 4096 ∧
        let seen := entrySeen pagemap (r.vaBegin >>> 12)
        let own := entryOf pagemap (r.vaBegin >>> 12)
        present seen = present own ∧ (present own = true → frameNumber seen = frameNumber own)) := by
  obtain ⟨lines, hlines, hfilter⟩ := mapRange_filter h entry r
  refine ⟨lines, hlines, ?_⟩
  simp only [ShowsPages, hfilter, ← rangeLine_eq]
  have hlength := r.length_pages
  have hbegin := r.begin_aligned
  have hend := r.end_aligned
  by_cases hone : r.vaEnd.toNat = r.vaBegin.toNat + 4096
  · have hcount : (r.vaEnd >>> 12).toNat - (r.vaBegin >>> 12).toNat = 1 := by
      rw [toNat_page, toNat_page]
      omega
    rw [VaRange.pages, hcount]
    generalize r.vaBegin >>> 12 = start
    have hpages : wordRange start.toNat 1 1 = [start] := by simp [wordRange]
    rw [hpages, ← rangeLine_eq_iff start]
    simp [entrySeen, hone]
  · constructor
    · intro heq
      have hlines := congrArg List.length heq
      rw [List.length_map, List.length_map, List.length_range] at hlines
      omega
    · rintro ⟨hone', -⟩
      exact absurd hone' hone

theorem map_range_iff_onePage :
    ∃ lines, mapRange onePage 0 oneVma.vaBegin oneVma.vaEnd = some lines ∧
      (ShowsPages onePage oneVma lines ↔ oneVma.vaEnd.toNat = oneVma.vaBegin.toNat + 4096 ∧
        let seen := entrySeen onePage (oneVma.vaBegin >>> 12)
        let own := entryOf onePage (oneVma.vaBegin >>> 12)
        present seen = present own ∧ (present own = true → frameNumber seen = frameNumber own)) :=
  map_range_iff (fun _ => rfl) 0 oneVma

/-- Page `0x400` and the next one, which is not mapped. -/
def twoPages : Vma where
  vaBegin := oneVma.vaBegin
  vaEnd := 0x402000
  begin_le_end := by decide
  begin_aligned := oneVma.begin_aligned
  end_aligned := by decide

/-- There is no line for the second page, and the first one, which is in frame 5, is shown as
unused. -/
theorem map_range_twoPages :
    mapRange onePage 0 twoPages.vaBegin twoPages.vaEnd =
        some [.separator, .counter 0x400, .unused 0x400, .separator] ∧
      ¬ ShowsPages onePage twoPages [.separator, .counter 0x400, .unused 0x400, .separator] := by
  refine ⟨by decide +kernel, fun h => ?_⟩
  have hlength := congrArg List.length h
  rw [List.length_map, twoPages.length_pages] at hlength
  revert hlength
  decide +kernel

end Cs342.MemUtils
