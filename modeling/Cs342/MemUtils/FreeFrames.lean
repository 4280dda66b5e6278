import Mathlib.Algebra.BigOperators.Fin
import Mathlib.Algebra.BigOperators.Ring.Finset
import Cs342.MemUtils.MemUsed

/-!
# Counting the free frames

`free_fc` reads the word that `/proc/kpagecount` holds for each frame from `pfnBegin` up to
`pfnEnd`, the one of frame `i` at byte `8 * i`, and counts the zeros. It gives up at the first
frame whose word cannot be read, and then shows what it has counted in front of that frame. The
frames it counts are none of those that `mem_used` counts for any process, so what is free and
what the processes do not share is never more than there is.

The count is an `int`, which is taken to wrap around.
-/

namespace Cs342.MemUtils

open Library

inductive FreeLine where
  | openFailed
  | readFailed
  | invalid (pfn : Word)
  | count (pfnBegin pfnEnd : Word) (count : ℤ)
  deriving DecidableEq, Repr

/-- What has been printed, and the count. -/
structure FreeState where
  printed : List FreeLine
  count : ℤ

/-- One frame; after a failed read the function prints the count and returns. -/
def freeFrame (kpagecount : File) (i : Word) (s : FreeState) : Flow FreeState :=
  let offset := i * 8
  match kpagecount.read offset.toNat with
  | .error _ => .stop { s with printed := s.printed ++ [.readFailed, .invalid i] }
  | .ok value => .next { s with count := if value = 0 then toInt (s.count + 1) else s.count }

/-- The number of rounds after which a counter has taken every value. -/
def counterRounds : ℕ := 2 ^ 64

/-- `kpc` is `/proc/kpagecount`, if it could be opened. -/
def freeFc (kpc : Option File) (pfnBegin pfnEnd : Word) : Option (List FreeLine) :=
  match kpc with
  | none => some [.openFailed]
  | some kpagecount =>
    (forLoop (fun i => i < pfnEnd) 1 (freeFrame kpagecount) counterRounds pfnBegin ⟨[], 0⟩).map
      fun s => s.printed ++ [.count pfnBegin pfnEnd s.count]

/-! ## What is counted -/

/-- The word of a frame can be read. -/
def FrameValid (kpagecount : File) (i : Word) : Prop := kpagecount.fault (i * 8).toNat = none

/-- The word of a frame: how many times it is mapped. -/
def countOf (kpagecount : File) (i : Word) : Word := kpagecount.bytes.uint64 (i * 8).toNat

/-- The free frames from `a` up to `b`. -/
def freeFrames (kpagecount : File) (a b : Word) : Set Word :=
  {i | a ≤ i ∧ i < b ∧ countOf kpagecount i = 0}

variable {kpagecount : File}

/-- The count after a frame. -/
def FreeState.add (kpagecount : File) (s : FreeState) (i : Word) : FreeState :=
  { s with count := if countOf kpagecount i = 0 then toInt (s.count + 1) else s.count }

theorem freeFrame_valid {i : Word} (h : FrameValid kpagecount i) (s : FreeState) :
    freeFrame kpagecount i s = .next (s.add kpagecount i) := by
  have hread : kpagecount.read (i * 8).toNat = .ok (countOf kpagecount i) := by
    rw [File.read, h]
    rfl
  simp only [freeFrame, hread, FreeState.add]

theorem freeFrame_invalid {i : Word} (h : ¬ FrameValid kpagecount i) (s : FreeState) :
    freeFrame kpagecount i s =
      .stop { s with printed := s.printed ++ [.readFailed, .invalid i] } := by
  obtain ⟨reason, hfault⟩ := Option.ne_none_iff_exists'.mp h
  have hread : kpagecount.read (i * 8).toNat = .error reason := by
    rw [File.read, hfault]
  simp only [freeFrame, hread]

/-- The zeros among the words of some frames are counted. -/
theorem foldl_add (l : List Word) (printed : List FreeLine) (c : ℤ) :
    l.foldl (FreeState.add kpagecount) ⟨printed, toInt c⟩ =
      ⟨printed, toInt (c + l.countP fun i => countOf kpagecount i = 0)⟩ := by
  induction l generalizing c with
  | nil => simp
  | cons i l ih =>
    have hwrap : toInt (toInt c + 1) = toInt (c + 1) := Int.bmod_add_bmod
    by_cases hzero : countOf kpagecount i = 0
    · have hstep : FreeState.add kpagecount ⟨printed, toInt c⟩ i = ⟨printed, toInt (c + 1)⟩ := by
        rw [FreeState.add, if_pos hzero, hwrap]
      rw [List.foldl_cons, hstep, ih, List.countP_cons_of_pos (by simpa using hzero)]
      congr 2
      push_cast
      ring
    · have hstep : FreeState.add kpagecount ⟨printed, toInt c⟩ i = ⟨printed, toInt c⟩ := by
        rw [FreeState.add, if_neg hzero]
      rw [List.foldl_cons, hstep, ih, List.countP_cons_of_neg (by simpa using hzero)]

/-- The frames from `a` up to `b`, in ascending order. -/
theorem mem_frames {a b i : Word} :
    i ∈ wordRange a.toNat (b.toNat - a.toNat) 1 ↔ a ≤ i ∧ i < b := by
  have ha := a.isLt
  have hb := b.isLt
  rw [mem_wordRange (by omega), BitVec.le_def, BitVec.lt_def]
  constructor
  · rintro ⟨k, hk, hi⟩
    omega
  · rintro ⟨hlo, hhi⟩
    exact ⟨i.toNat - a.toNat, by omega, by omega⟩

theorem ncard_freeFrames (a b : Word) :
    (freeFrames kpagecount a b).ncard =
      (wordRange a.toNat (b.toNat - a.toNat) 1).countP fun i => countOf kpagecount i = 0 := by
  have ha := a.isLt
  have hb := b.isLt
  have hnodup := nodup_wordRange (a := a.toNat) (n := b.toNat - a.toNat) (k := 1) Nat.one_pos
    (by omega)
  have hset : freeFrames kpagecount a b =
      {i | i ∈ wordRange a.toNat (b.toNat - a.toNat) 1 ∧
        decide (countOf kpagecount i = 0) = true} := by
    ext i
    simp only [freeFrames, Set.mem_ofPred_eq, mem_frames, decide_eq_true_eq, and_assoc]
  rw [hset, ncard_countP hnodup]

/-- What the loop has counted when it comes to `b`. -/
theorem foldl_frames (a b : Word) :
    (wordRange a.toNat (b.toNat - a.toNat) 1).foldl (FreeState.add kpagecount) ⟨[], 0⟩ =
      ⟨[], toInt (freeFrames kpagecount a b).ncard⟩ := by
  have hzero : (0 : ℤ) = toInt 0 := rfl
  rw [hzero, foldl_add, zero_add, ncard_freeFrames]

theorem freeFc_valid {pfnBegin pfnEnd : Word}
    (h : ∀ i, pfnBegin ≤ i → i < pfnEnd → FrameValid kpagecount i) :
    freeFc (some kpagecount) pfnBegin pfnEnd =
      some [.count pfnBegin pfnEnd (toInt (freeFrames kpagecount pfnBegin pfnEnd).ncard)] := by
  have hbegin := pfnBegin.isLt
  have hend := pfnEnd.isLt
  have hone : (1 : Word).toNat = 1 := rfl
  have hloop : forLoop (fun i => i < pfnEnd) 1 (freeFrame kpagecount) counterRounds pfnBegin
      ⟨[], 0⟩ =
      some ((wordRange pfnBegin.toNat (pfnEnd.toNat - pfnBegin.toNat) 1).foldl
        (FreeState.add kpagecount) ⟨[], 0⟩) := by
    apply forLoop_lt
    · intro i hi s
      obtain ⟨hlo, hhi⟩ := mem_frames.mp hi
      exact freeFrame_valid (h i hlo hhi) s
    · rw [hone]
      omega
    · rw [counterRounds]
      omega
    · intro i hi
      rw [hone]
      omega
    · rw [hone]
      omega
  simp only [freeFc, hloop, foldl_frames, Option.map_some, List.nil_append]

theorem freeFc_invalid {pfnBegin pfnEnd i : Word} (hlo : pfnBegin ≤ i) (hhi : i < pfnEnd)
    (hinvalid : ¬ FrameValid kpagecount i)
    (h : ∀ j, pfnBegin ≤ j → j < i → FrameValid kpagecount j) :
    freeFc (some kpagecount) pfnBegin pfnEnd =
      some [.readFailed, .invalid i,
        .count pfnBegin pfnEnd (toInt (freeFrames kpagecount pfnBegin i).ncard)] := by
  have hend := pfnEnd.isLt
  have hone : (1 : Word).toNat = 1 := rfl
  rw [BitVec.le_def] at hlo
  rw [BitVec.lt_def] at hhi
  have hcounter : BitVec.ofNat 64 (pfnBegin.toNat + 1 * (i.toNat - pfnBegin.toNat)) = i := by
    rw [Nat.one_mul, Nat.add_sub_cancel' hlo, BitVec.ofNat_toNat, BitVec.setWidth_eq]
  have hloop : forLoop (fun i => i < pfnEnd) 1 (freeFrame kpagecount) counterRounds pfnBegin
      ⟨[], 0⟩ =
      some ⟨[.readFailed, .invalid i], toInt (freeFrames kpagecount pfnBegin i).ncard⟩ := by
    apply forLoop_stop (n := i.toNat - pfnBegin.toNat) (f := FreeState.add kpagecount)
    · intro j hj s
      obtain ⟨hlo, hhi⟩ := mem_frames.mp hj
      exact freeFrame_valid (h j hlo hhi) s
    · rw [hone]
      omega
    · rw [counterRounds]
      omega
    · rw [hone, hcounter, foldl_frames, freeFrame_invalid hinvalid, List.nil_append]
  simp only [freeFc, hloop, Option.map_some, List.cons_append, List.nil_append]

example : freeFc (some { frameFive with fault pos := if pos < 64 then none else some .endOfFile })
    4 16 = some [.readFailed, .invalid 8, .count 4 16 3] := by
  decide +kernel

/-! ## What is free and what is not shared -/

/-- A process, as `mem_used` sees it. -/
structure Process where
  pagemap : File
  ranges : List Vma
  readable : pagemap.Readable
  disjoint : ranges.Pairwise fun a b => ∀ va ∈ a.addresses, va ∉ b.addresses

/-- The frame of a page of the process. -/
def Process.frame (c : Process) (page : Word) : Word := frameNumber (entryOf c.pagemap page)

/-- The processes and the frames of a machine, with what the kernel promises: there is a word for
each frame, pages are in these frames, and a frame that is mapped once is that of one page. -/
structure Machine (n : ℕ) where
  process : Fin n → Process
  kpagecount : File
  frames : Word
  frames_lt : frames.toNat < 2 ^ 61
  valid : ∀ i, i < frames → FrameValid kpagecount i
  frame_lt : ∀ t page, present (entryOf (process t).pagemap page) = true →
    (process t).frame page < frames
  mapped_once : ∀ s t p q, present (entryOf (process s).pagemap p) = true →
    present (entryOf (process t).pagemap q) = true →
    (process s).frame p = (process t).frame q →
    countOf kpagecount ((process s).frame p) = 1 → s = t ∧ p = q

namespace Machine

variable {n : ℕ} (m : Machine n)

/-- The pages of a process that nothing else maps. -/
def exclusivePages (t : Fin n) : List Word :=
  ((m.process t).ranges.flatMap fun r => r.pages).filter
    (exclusive (m.process t).pagemap m.kpagecount)

/-- The position of the word of a frame. -/
theorem toNat_mul_eight {i : Word} (h : i < m.frames) : ((i * 8).toNat : ℤ) = 8 * i.toNat := by
  have hlt := m.frames_lt
  have height : (8 : Word).toNat = 8 := rfl
  rw [BitVec.lt_def] at h
  rw [BitVec.toNat_mul, height]
  omega

theorem mem_exclusivePages {t : Fin n} {p : Word} (h : p ∈ m.exclusivePages t) :
    present (entryOf (m.process t).pagemap p) = true ∧
      countOf m.kpagecount ((m.process t).frame p) = 1 := by
  obtain ⟨-, hexclusive⟩ := List.mem_filter.mp h
  rw [exclusive, Bool.and_eq_true, decide_eq_true_eq] at hexclusive
  obtain ⟨hpresent, hcount⟩ := hexclusive
  refine ⟨hpresent, BitVec.eq_of_toInt_eq ?_⟩
  rw [countOf, m.toNat_mul_eight (m.frame_lt t p hpresent)]
  exact hcount

/-- The words of the frames, as a file of which every word can be read. -/
def allCounts : File := { m.kpagecount with fault := fun _ => none }

/-- `mem_used` always finds the word of a frame, as if all words could be read. -/
theorem memUsedPage_allCounts (t : Fin n) (addrEnd VPN : Word) (s : MemSums) :
    memUsedPage (m.process t).pagemap m.kpagecount addrEnd VPN s =
      memUsedPage (m.process t).pagemap m.allCounts addrEnd VPN s := by
  obtain ⟨page, hpos⟩ : ∃ page : Word, ((VPN <<< 3).toNat : ℤ) = 8 * page.toNat := by
    refine ⟨(VPN <<< 3) >>> 3, ?_⟩
    rw [toNat_shr, BitVec.toNat_shiftLeft, Nat.shiftLeft_eq]
    omega
  simp only [memUsedPage, hpos, read_entryOf (m.process t).readable, isMapped_iff, and_bitmask]
  by_cases hpresent : present (entryOf (m.process t).pagemap page) = true
  · have hlt := m.frame_lt t page hpresent
    have hposition : (frameNumber (entryOf (m.process t).pagemap page) <<< 3).toNat =
        (frameNumber (entryOf (m.process t).pagemap page) * 8).toNat := by
      have hmul := m.toNat_mul_eight hlt
      have hshl := toNat_shl ((toNat_frameNumber_lt (entryOf (m.process t).pagemap page)).trans
        (by decide))
      rw [Process.frame] at hmul
      omega
    have hread : m.kpagecount.read
        (frameNumber (entryOf (m.process t).pagemap page) <<< 3).toNat =
          m.allCounts.read (frameNumber (entryOf (m.process t).pagemap page) <<< 3).toNat := by
      have hvalid := m.valid _ hlt
      rw [FrameValid, Process.frame, ← hposition] at hvalid
      rw [File.read, File.read, hvalid]
      rfl
    rw [hread]
  · rw [if_neg hpresent, if_neg hpresent]

/-- What `mem_used` counts for a process as not shared. -/
theorem exclusive_sum (t : Fin n) :
    ∃ sums, memUsedPhysical (m.process t).pagemap m.kpagecount
        ((m.process t).ranges.map Vma.toVaRange) = some sums ∧
      (sums.exclusiveMemorySum >>> 10).toNat = 4 * (m.exclusivePages t).length := by
  have hpage : memUsedPage (m.process t).pagemap m.kpagecount =
      memUsedPage (m.process t).pagemap m.allCounts := by
    funext addrEnd VPN s
    exact m.memUsedPage_allCounts t addrEnd VPN s
  have hsame : memUsedPhysical (m.process t).pagemap m.kpagecount =
      memUsedPhysical (m.process t).pagemap m.allCounts := by
    funext ranges
    rw [memUsedPhysical, hpage, memUsedPhysical]
  have hfew := length_flatMap_pages_lt (nodup_flatMap_pages (m.process t).disjoint)
  rw [hsame, memUsedPhysical_eq (m.process t).readable (fun _ => rfl)]
  refine ⟨_, rfl, ?_⟩
  have hlength : ((m.process t).ranges.flatMap fun r => r.pages).countP
      (exclusive (m.process t).pagemap m.allCounts) = (m.exclusivePages t).length :=
    List.countP_eq_length_filter
  rw [hlength, toNat_shr, BitVec.toNat_ofNat]
  have hle : (m.exclusivePages t).length ≤ ((m.process t).ranges.flatMap fun r => r.pages).length :=
    List.length_filter_le _ _
  omega

/-- The frames, all different, that are free or are those of pages that nothing else maps. -/
def countedFrames : List Word :=
  (wordRange 0 m.frames.toNat 1).filter (fun i => countOf m.kpagecount i = 0) ++
    (List.finRange n).flatMap fun t => (m.exclusivePages t).map (m.process t).frame

theorem nodup_countedFrames : m.countedFrames.Nodup := by
  refine List.nodup_append'.mpr ⟨?_, ?_, ?_⟩
  · refine List.Nodup.filter _ (nodup_wordRange Nat.one_pos ?_)
    have := m.frames.isLt
    omega
  · refine List.nodup_flatMap.mpr ⟨fun t _ => ?_, ?_⟩
    · refine List.Nodup.map_on ?_
        (List.Nodup.filter _ (nodup_flatMap_pages (m.process t).disjoint))
      intro p hp q hq heq
      obtain ⟨hp, hcount⟩ := m.mem_exclusivePages hp
      exact (m.mapped_once t t p q hp (m.mem_exclusivePages hq).1 heq hcount).2
    · refine (List.nodup_finRange n).imp ?_
      intro s t hst i hs ht
      obtain ⟨p, hp, rfl⟩ := List.mem_map.mp hs
      obtain ⟨q, hq, heq⟩ := List.mem_map.mp ht
      obtain ⟨hp, hcount⟩ := m.mem_exclusivePages hp
      exact hst (m.mapped_once s t p q hp (m.mem_exclusivePages hq).1 heq.symm hcount).1
  · -- a frame of a page is mapped, and no free frame is
    intro i hfree hi
    obtain ⟨t, -, hi⟩ := List.mem_flatMap.mp hi
    obtain ⟨p, hp, rfl⟩ := List.mem_map.mp hi
    have hzero := of_decide_eq_true (List.mem_filter.mp hfree).2
    rw [(m.mem_exclusivePages hp).2] at hzero
    exact absurd hzero (by decide)

theorem length_countedFrames_le : m.countedFrames.length ≤ m.frames.toNat := by
  have hsub : m.countedFrames ⊆ wordRange 0 m.frames.toNat 1 := by
    intro i hi
    rcases List.mem_append.mp hi with hi | hi
    · exact (List.mem_filter.mp hi).1
    · obtain ⟨t, -, hi⟩ := List.mem_flatMap.mp hi
      obtain ⟨p, hp, rfl⟩ := List.mem_map.mp hi
      have hlt := m.frame_lt t p (m.mem_exclusivePages hp).1
      exact (mem_frames (a := 0)).mpr ⟨BitVec.le_def.mpr (Nat.zero_le _), hlt⟩
  have hlength := (m.nodup_countedFrames.subperm hsub).length_le
  rwa [wordRange, List.length_map, List.length_range] at hlength

/-- The free memory that `free_fc` finds and what `mem_used` finds for the processes as not shared
are together no more than the memory there is. -/
theorem free_and_exclusive (m : Machine n) :
    ∃ (count : ℕ) (sums : Fin n → MemSums),
      freeFc (some m.kpagecount) 0 m.frames = some [.count 0 m.frames (toInt count)] ∧
      (∀ t, memUsedPhysical (m.process t).pagemap m.kpagecount
        ((m.process t).ranges.map Vma.toVaRange) = some (sums t)) ∧
      4 * count + ∑ t, ((sums t).exclusiveMemorySum >>> 10).toNat ≤ 4 * m.frames.toNat := by
  choose sums hsums hexclusive using m.exclusive_sum
  refine ⟨(freeFrames m.kpagecount 0 m.frames).ncard, sums,
    freeFc_valid fun i _ hi => m.valid i hi, hsums, ?_⟩
  have hle := m.length_countedFrames_le
  have hfree : ((wordRange 0 m.frames.toNat 1).filter fun i =>
      countOf m.kpagecount i = 0).length = (freeFrames m.kpagecount 0 m.frames).ncard := by
    rw [ncard_freeFrames, List.countP_eq_length_filter]
    rfl
  have hsum : ∑ t, ((sums t).exclusiveMemorySum >>> 10).toNat =
      4 * ((List.finRange n).map fun t => (m.exclusivePages t).length).sum := by
    simp only [hexclusive, ← Finset.mul_sum, Fin.sum_univ_def]
  rw [countedFrames, List.length_append, hfree, List.length_flatMap] at hle
  simp only [List.length_map] at hle
  omega

end Machine

theorem entryOf_onePage {page : Word} (h : present (entryOf onePage page) = true) :
    page = 0x400 := by
  by_contra hne
  have hpos : page.toNat ≠ 0x400 := fun heq => hne (BitVec.eq_of_toNat_eq heq)
  have hnul (k : ℤ) (hk : 0 ≤ k ∧ k < 8) : onePage.bytes (8 * page.toNat + k) = nul := by
    simp only [onePage]
    rw [if_neg (by omega), if_neg (by omega)]
  have hzero : entryOf onePage page = 0 := by
    rw [entryOf, Mem.uint64, List.foldr_ext _ (fun _ high => 256 * high) 0]
    · rfl
    · intro k hk high
      have hk : 0 ≤ k ∧ k < 8 := by
        revert k
        decide
      rw [hnul k hk]
      exact Nat.zero_add _
  rw [hzero] at h
  exact absurd h (by decide)

/-- The process of `onePage` alone, in sixteen frames. -/
def oneProcess : Machine 1 where
  process _ := ⟨onePage, [oneVma, nextVma], fun _ => rfl, List.pairwise_pair.mpr disjoint_nextVma⟩
  kpagecount := frameFive
  frames := 16
  frames_lt := by decide
  valid _ _ := rfl
  frame_lt _ page h := by
    rw [entryOf_onePage h]
    decide +kernel
  mapped_once s t p q hp hq _ _ :=
    ⟨Subsingleton.elim s t, (entryOf_onePage hp).trans (entryOf_onePage hq).symm⟩

theorem free_and_exclusive_oneProcess :
    ∃ (count : ℕ) (sums : Fin 1 → MemSums),
      freeFc (some oneProcess.kpagecount) 0 oneProcess.frames =
        some [.count 0 oneProcess.frames (toInt count)] ∧
      (∀ t, memUsedPhysical (oneProcess.process t).pagemap oneProcess.kpagecount
        ((oneProcess.process t).ranges.map Vma.toVaRange) = some (sums t)) ∧
      4 * count + ∑ t, ((sums t).exclusiveMemorySum >>> 10).toNat ≤ 4 * oneProcess.frames.toNat :=
  oneProcess.free_and_exclusive

end Cs342.MemUtils
