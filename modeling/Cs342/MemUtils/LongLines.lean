import Cs342.MemUtils.MapsText

/-!
# Lines that do not fit in a buffer

A loop that reads the maps text is undisturbed if it counts for one range per line, the line's
own, and for nothing else. The first piece of a line always gives its range, so this depends on
the later pieces alone: on the numbers they begin with, on the lengths of their words, and, as
the first loop of `mem_used` is left at `[vsyscall]`, on what they leave in `path`.
-/

namespace Cs342.MemUtils

open Library

variable {n : ℕ} {lines : List MapsLine}

/-! ## The loops over a kernel text -/

/-- The words of the piece have room in their arrays. -/
def WordsFit (buf : List Byte) : Prop := (sscanf mapsFormat buf).isSome = true

theorem mapM_scanBuf (hn : 0 < n) {format : List Directive} {ranges : List VaRange} :
    (pieces n (mapsText lines)).mapM (fun buf =>
        (scanBuf (.hex :: .literal minus :: .hex :: format) buf).map scannedRange) = some ranges ↔
      (∀ buf ∈ pieces n (mapsText lines),
        (sscanf (.hex :: .literal minus :: .hex :: format) buf).isSome = true) ∧
        ranges = (pieces n (mapsText lines)).map rangeOf := by
  rw [mapM_eq_some_iff (g := rangeOf)]
  · refine and_congr_left' (forall₂_congr fun buf hbuf => ?_)
    rw [scanBuf, bufString_eq hn hbuf, Option.isSome_map]
  · intro buf hbuf r hr
    rw [scanBuf, bufString_eq hn hbuf] at hr
    obtain ⟨items, hitems, rfl⟩ := Option.map_eq_some_iff.mp hr
    exact scannedRange_eq hitems

theorem tableRanges_eq (lines : List MapsLine) :
    tableRanges (mapsText lines) = some ((pieces 355 (mapsText lines)).map rangeOf) := by
  refine (mapM_scanBuf (by decide)).mpr ⟨fun buf _ => sscanf_isSome ?_ buf, rfl⟩
  simp

theorem physicalRanges_eq_some_iff {ranges : List VaRange} :
    physicalRanges (mapsText lines) = some ranges ↔
      (∀ buf ∈ pieces 363 (mapsText lines), WordsFit buf) ∧
        ranges = (pieces 363 (mapsText lines)).map rangeOf :=
  mapM_scanBuf (by decide)

/-- In this round `mem_used` finds `[vsyscall]` in `path`. -/
def EndsLoop (unset : ℕ → CString) (bufs : List (List Byte)) (i : ℕ) : Prop :=
  ∃ buf items, bufs[i]? = some buf ∧ sscanf mapsFormat buf = some items ∧
    scannedPath (unset i) items = vsyscall

theorem endsLoop_zero {buf : List Byte} {items : List Scanned}
    (hitems : sscanf mapsFormat buf = some items) (unset : ℕ → CString) (bufs : List (List Byte)) :
    EndsLoop unset (buf :: bufs) 0 ↔ scannedPath (unset 0) items = vsyscall := by
  simp [EndsLoop, hitems]

theorem endsLoop_succ {unset : ℕ → CString} {buf : List Byte} {bufs : List (List Byte)} (j : ℕ) :
    EndsLoop unset (buf :: bufs) (j + 1) ↔ EndsLoop (fun i => unset (i + 1)) bufs j := by
  simp only [EndsLoop, List.getElem?_cons_succ]

/-- The rounds up to the first one that ends the loop. -/
theorem virtualRounds_eq {bufs : List (List Byte)} (hstring : ∀ buf ∈ bufs, bufString buf = buf)
    (hfit : ∀ buf ∈ bufs, WordsFit buf) (unset : ℕ → CString) (i : ℕ) :
    ∃ m, virtualRounds unset i bufs = some ((bufs.take m).map rangeOf) ∧
      ∀ k < bufs.length, k < m ↔ ∀ j < k, ¬ EndsLoop (fun j => unset (j + i)) bufs j := by
  induction bufs generalizing i with
  | nil => exact ⟨0, rfl, by simp⟩
  | cons buf bufs ih =>
    obtain ⟨items, hitems⟩ := Option.isSome_iff_exists.mp (hfit buf List.mem_cons_self)
    have hscan : scanBuf mapsFormat buf = some items := by
      rw [scanBuf, hstring buf List.mem_cons_self, hitems]
    have hrange : scannedRange items = rangeOf buf := scannedRange_eq hitems
    have hfirst := endsLoop_zero hitems (fun j => unset (j + i)) bufs
    rw [Nat.zero_add] at hfirst
    by_cases hends : scannedPath (unset i) items = vsyscall
    · refine ⟨1, ?_, fun k _ => ?_⟩
      · simp [virtualRounds, hscan, strcmp_eq_zero_iff, hends, hrange]
      · cases k with
        | zero => simp
        | succ k =>
          rw [Nat.forall_lt_succ_left]
          simp [hfirst, hends]
    · obtain ⟨m, hrounds, hm⟩ := ih (fun buf h => hstring buf (List.mem_cons_of_mem _ h))
        (fun buf h => hfit buf (List.mem_cons_of_mem _ h)) (i + 1)
      refine ⟨m + 1, ?_, fun k hk => ?_⟩
      · simp [virtualRounds, hscan, strcmp_eq_zero_iff, hends, hrange, hrounds]
      · cases k with
        | zero => simp
        | succ k =>
          rw [Nat.add_lt_add_iff_right, hm k (by simpa using hk), Nat.forall_lt_succ_left]
          simp [hfirst, hends, endsLoop_succ, Nat.add_right_comm, Nat.add_assoc]

/-! ## What a loop counts -/

/-- A loop counts for the ranges of the lines, in their order, and not for a later piece. -/
structure Undisturbed (counts : VaRange → Prop) [DecidablePred counts] (lines : List MapsLine)
    (bufs : List (List Byte)) (ranges : List VaRange) : Prop where
  pairs : ranges.filter counts = lines.map fun line => line.vma.toVaRange
  later : ∀ r, (false, r) ∈ (lineStarts true bufs).zip ranges → ¬ counts r

namespace Undisturbed

variable {bufs : List (List Byte)} {ranges : List VaRange}

/-- The tables are those of the areas. -/
theorem allTableSize_eq (h : Undisturbed TableCounts lines bufs ranges) :
    allTableSize ranges = allTableSize (lines.map fun line => line.vma.toVaRange) := by
  rw [← allTableSize_filter, h.pairs]

theorem virtualSum_eq (h : Undisturbed VirtualCounts lines bufs ranges) :
    virtualSum ranges = virtualSum (lines.map fun line => line.vma.toVaRange) := by
  rw [← virtualSum_filter, h.pairs]

theorem memUsedPhysical_eq {pagemap kpagecount : File} (hpm : pagemap.Readable)
    (hkpc : kpagecount.Readable) (h : Undisturbed PhysicalCounts lines bufs ranges) :
    memUsedPhysical pagemap kpagecount ranges =
      memUsedPhysical pagemap kpagecount (lines.map fun line => line.vma.toVaRange) := by
  rw [← memUsedPhysical_filter hpm hkpc, h.pairs]

end Undisturbed

/-- The first pieces of the lines give the ranges of the lines. -/
theorem own_ranges (hn : 34 ≤ n) (lines : List MapsLine) :
    ((readRounds n lines).filter Prod.fst).map (fun x => rangeOf x.2) =
      lines.map fun line => line.vma.toVaRange := by
  have hnone (bufs : List (List Byte)) : (bufs.map (false, ·)).filter Prod.fst = [] := by
    rw [List.filter_eq_nil_iff]
    simp
  rw [readRounds_eq (Nat.lt_of_lt_of_le (by decide) hn)]
  induction lines with
  | nil => rfl
  | cons line lines ih =>
    rw [List.flatMap_cons, List.cons_append, List.filter_cons_of_pos rfl, List.filter_append,
      hnone, List.nil_append, List.map_cons, List.map_cons, ih, line.rangeOf_take hn]

section Counts

variable {counts : VaRange → Prop} [DecidablePred counts]

omit [DecidablePred counts] in
theorem counts_of_start (hn : 34 ≤ n) (hown : ∀ line : MapsLine, counts line.vma.toVaRange)
    {buf : List Byte} (hbuf : (true, buf) ∈ readRounds n lines) : counts (rangeOf buf) := by
  rw [readRounds_eq (Nat.lt_of_lt_of_le (by decide) hn), List.mem_flatMap] at hbuf
  obtain ⟨line, -, hbuf⟩ := hbuf
  rw [List.mem_cons, List.mem_map] at hbuf
  obtain hbuf | ⟨later, -, hbuf⟩ := hbuf
  · cases hbuf
    exact (line.rangeOf_take hn).symm ▸ hown line
  · cases hbuf

/-- A loop that is left after `m` rounds has to have begun every line. -/
theorem undisturbed_take_iff (hn : 34 ≤ n) (hown : ∀ line : MapsLine, counts line.vma.toVaRange)
    (lines : List MapsLine) (m : ℕ) :
    Undisturbed counts lines (pieces n (mapsText lines))
        (((pieces n (mapsText lines)).take m).map rangeOf) ↔
      (∀ buf, (true, buf) ∉ (readRounds n lines).drop m) ∧
        ∀ buf, (false, buf) ∈ (readRounds n lines).take m → ¬ counts (rangeOf buf) := by
  have hranges : ((readRounds n lines).take m).map (fun x => rangeOf x.2) =
      ((pieces n (mapsText lines)).take m).map rangeOf := by
    rw [← map_snd_readRounds, ← List.map_take, List.map_map]
    rfl
  have hlater (r : VaRange) : (false, r) ∈ (lineStarts true (pieces n (mapsText lines))).zip
      (((pieces n (mapsText lines)).take m).map rangeOf) ↔
        ∃ buf, (false, buf) ∈ (readRounds n lines).take m ∧ rangeOf buf = r := by
    rw [List.zip_map_right, zip_take, List.mem_map]
    constructor
    · rintro ⟨⟨start, buf⟩, hbuf, heq⟩
      cases heq
      exact ⟨buf, hbuf, rfl⟩
    · rintro ⟨buf, hbuf, rfl⟩
      exact ⟨(false, buf), hbuf, rfl⟩
  rw [← filter_take_iff (fun _ => counts_of_start hn hown) m, hranges, own_ranges hn lines]
  constructor
  · intro h
    exact ⟨h.pairs, fun buf hbuf => h.later _ ((hlater _).mpr ⟨buf, hbuf, rfl⟩)⟩
  · rintro ⟨hpairs, hnot⟩
    refine ⟨hpairs, fun r hr => ?_⟩
    obtain ⟨buf, hbuf, rfl⟩ := (hlater r).mp hr
    exact hnot buf hbuf

/-- A loop that goes over all pieces. -/
theorem undisturbed_iff (hn : 34 ≤ n) (hown : ∀ line : MapsLine, counts line.vma.toVaRange) :
    Undisturbed counts lines (pieces n (mapsText lines)) ((pieces n (mapsText lines)).map rangeOf) ↔
      ∀ buf, Later n lines buf → ¬ counts (rangeOf buf) := by
  have hiff := undisturbed_take_iff hn hown lines (readRounds n lines).length
  rw [List.take_length, List.drop_length, length_readRounds, List.take_length] at hiff
  simpa [later_iff (Nat.lt_of_lt_of_le (by decide) hn)] using hiff

end Counts

/-- Every loop counts for one range per line, the line's own. -/
structure ReadUndisturbed (unset : ℕ → CString) (lines : List MapsLine) : Prop where
  table : ∃ ranges, tableRanges (mapsText lines) = some ranges ∧
    Undisturbed TableCounts lines (pieces 355 (mapsText lines)) ranges
  virtual : ∃ ranges, virtualRanges unset (mapsText lines) = some ranges ∧
    Undisturbed VirtualCounts lines (pieces 363 (mapsText lines)) ranges
  physical : ∃ ranges, physicalRanges (mapsText lines) = some ranges ∧
    Undisturbed PhysicalCounts lines (pieces 363 (mapsText lines)) ranges

/-- What is counted then is what the areas themselves give. -/
theorem ReadUndisturbed.totals {unset : ℕ → CString} (h : ReadUndisturbed unset lines)
    {pagemap kpagecount : File} (hpm : pagemap.Readable) (hkpc : kpagecount.Readable) :
    let areas := lines.map fun line => line.vma.toVaRange
    (tableRanges (mapsText lines)).bind allTableSize = allTableSize areas ∧
      (virtualRanges unset (mapsText lines)).map virtualSum = some (virtualSum areas) ∧
      (physicalRanges (mapsText lines)).bind (memUsedPhysical pagemap kpagecount) =
        memUsedPhysical pagemap kpagecount areas := by
  obtain ⟨_, htable, htables⟩ := h.table
  obtain ⟨_, hvirtual, hsum⟩ := h.virtual
  obtain ⟨_, hphysical, hpages⟩ := h.physical
  rw [htable, hvirtual, hphysical]
  exact ⟨htables.allTableSize_eq, congrArg some hsum.virtualSum_eq,
    hpages.memUsedPhysical_eq hpm hkpc⟩

/-- Before this round `mem_used` has not found `[vsyscall]` in `path`. -/
def Reached (unset : ℕ → CString) (lines : List MapsLine) (i : ℕ) : Prop :=
  ∀ j < i, ¬ EndsLoop unset (pieces 363 (mapsText lines)) j

/-- The numbers that later pieces begin with, if they do, stand for nothing that is counted, words
have room, and the first loop of `mem_used` comes to the last line. -/
structure Harmless (unset : ℕ → CString) (lines : List MapsLine) : Prop where
  table : ∀ buf, Later 355 lines buf → ∀ a b, HexRange buf a b → b >>> 12 ≤ a >>> 12
  words : ∀ buf ∈ pieces 363 (mapsText lines), WordsFit buf
  starts : ∀ i buf, (readRounds 363 lines)[i]? = some (true, buf) → Reached unset lines i
  virtual : ∀ i buf, (readRounds 363 lines)[i]? = some (false, buf) → Reached unset lines i →
    (∀ a b, HexRange buf a b → b - a < 1024) ∧ ∀ a, HexAlone buf a → 0 - a < 1024
  physical : ∀ buf, Later 363 lines buf → ∀ a b, HexRange buf a b → b ≤ (a >>> 12) <<< 12

/-- The first loop of `mem_used`, if words have room. -/
theorem virtual_undisturbed_iff (unset : ℕ → CString)
    (hfit : ∀ buf ∈ pieces 363 (mapsText lines), WordsFit buf) :
    (∃ ranges, virtualRanges unset (mapsText lines) = some ranges ∧
      Undisturbed VirtualCounts lines (pieces 363 (mapsText lines)) ranges) ↔
      (∀ i buf, (readRounds 363 lines)[i]? = some (true, buf) → Reached unset lines i) ∧
        ∀ i buf, (readRounds 363 lines)[i]? = some (false, buf) → Reached unset lines i →
          ¬ VirtualCounts (rangeOf buf) := by
  obtain ⟨m, hrounds, hm⟩ := virtualRounds_eq (fun _ => bufString_eq (by decide)) hfit unset 0
  have hreached {i : ℕ} {x : Bool × List Byte} (h : (readRounds 363 lines)[i]? = some x) :
      i < m ↔ Reached unset lines i := by
    have hi := (List.getElem?_eq_some_iff.mp h).1
    rw [length_readRounds] at hi
    have hi := hm i hi
    simp only [Nat.add_zero] at hi
    exact hi
  rw [virtualRanges, hrounds]
  simp only [Option.some.injEq, exists_eq_left']
  rw [undisturbed_take_iff (by decide) MapsLine.virtualCounts]
  refine and_congr ?_ ?_
  · constructor
    · intro hnone i buf hbuf
      refine (hreached hbuf).mp (not_le.mp fun hle => ?_)
      exact hnone buf (mem_drop_iff.mpr ⟨i, hle, hbuf⟩)
    · intro hall buf hbuf
      obtain ⟨i, hle, hi⟩ := mem_drop_iff.mp hbuf
      exact hle.not_gt ((hreached hi).mpr (hall i buf hi))
  · constructor
    · intro hnot i buf hbuf hi
      exact hnot buf (mem_take_iff.mpr ⟨i, (hreached hbuf).mpr hi, hbuf⟩)
    · intro hnot buf hbuf
      obtain ⟨i, hlt, hi⟩ := mem_take_iff.mp hbuf
      exact hnot i buf hi ((hreached hi).mp hlt)

/-- The loops count for the ranges of the lines and for nothing else exactly if the later pieces
of long lines are harmless. -/
theorem maps_read_undisturbed_iff (unset : ℕ → CString) (lines : List MapsLine) :
    ReadUndisturbed unset lines ↔ Harmless unset lines := by
  have htable : (∃ ranges, tableRanges (mapsText lines) = some ranges ∧
      Undisturbed TableCounts lines (pieces 355 (mapsText lines)) ranges) ↔
        ∀ buf, Later 355 lines buf → ∀ a b, HexRange buf a b → b >>> 12 ≤ a >>> 12 := by
    rw [tableRanges_eq]
    simp only [Option.some.injEq, exists_eq_left']
    simp only [undisturbed_iff (show 34 ≤ 355 by decide) MapsLine.tableCounts,
      not_tableCounts_iff]
  have hphysical : (∃ ranges, physicalRanges (mapsText lines) = some ranges ∧
      Undisturbed PhysicalCounts lines (pieces 363 (mapsText lines)) ranges) ↔
        (∀ buf ∈ pieces 363 (mapsText lines), WordsFit buf) ∧
          ∀ buf, Later 363 lines buf → ∀ a b, HexRange buf a b → b ≤ (a >>> 12) <<< 12 := by
    simp only [physicalRanges_eq_some_iff, and_assoc, exists_and_left, exists_eq_left,
      undisturbed_iff (show 34 ≤ 363 by decide) MapsLine.physicalCounts, not_physicalCounts_iff]
  constructor
  · intro h
    obtain ⟨hfit, hlater⟩ := hphysical.mp h.physical
    obtain ⟨hstarts, hvirtual⟩ := (virtual_undisturbed_iff unset hfit).mp h.virtual
    refine ⟨htable.mp h.table, hfit, hstarts, fun i buf hbuf hi => ?_, hlater⟩
    exact not_virtualCounts_iff.mp (hvirtual i buf hbuf hi)
  · intro h
    refine ⟨htable.mpr h.table, ?_, hphysical.mpr ⟨h.words, h.physical⟩⟩
    refine (virtual_undisturbed_iff unset h.words).mpr ⟨h.starts, fun i buf hbuf hi => ?_⟩
    exact not_virtualCounts_iff.mpr (h.virtual i buf hbuf hi)

/-- One page of a file. The name is so long that the line does not fit in the buffers, and goes on
with `100-20ffdata/x` at byte 355 and with `data/x` at byte 363. -/
def longLine : MapsLine where
  vma := oneVma
  nonempty := by decide
  readable := true
  writable := false
  executable := false
  shared := false
  offset := 0
  major := 8
  minor := 1
  inode := 42
  path := (47 :: (List.replicate 200 120 ++ 47 :: (List.replicate 20 121 ++ 32 ::
    (List.replicate 59 122 ++
      [49, 48, 48, 45, 50, 48, 102, 102, 100, 97, 116, 97, 47, 120])))).map byte
  newline_notMem := by decide +kernel
  nul_notMem := by decide +kernel

/-- `all_table_size` goes over more than 500 pages that nothing is mapped to, and `mem_used` adds
almost 2 ^ 54. -/
theorem maps_read_disturbed :
    tableRanges (mapsText [longLine]) = some [oneVma.toVaRange, ⟨0x100, 0x20ffda⟩] ∧
      virtualRanges (fun _ => []) (mapsText [longLine]) =
        some [oneVma.toVaRange, ⟨0xda, 0⟩] ∧
      ¬ ReadUndisturbed (fun _ => []) [longLine] := by
  have htable : tableRanges (mapsText [longLine]) =
      some [oneVma.toVaRange, ⟨0x100, 0x20ffda⟩] := by decide +kernel
  refine ⟨htable, by decide +kernel, fun h => ?_⟩
  obtain ⟨ranges, hranges, hundisturbed⟩ := h.table
  rw [htable] at hranges
  have hpairs := hundisturbed.pairs
  rw [← Option.some.inj hranges] at hpairs
  exact absurd hpairs (by decide)

end Cs342.MemUtils
