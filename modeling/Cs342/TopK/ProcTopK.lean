import Mathlib.Algebra.BigOperators.Fin
import Cs342.TopK.SharedMemory
import Cs342.TopK.ThreadTopK

/-!
# Top-K with processes (proctopk.c)

Each child ranks the words of one file as a worker of threadtopk.c does, and writes its
first `K` to the shared segment; the parent counts the `N * K` records of the segment
together and keeps the first `K` again. Here the children run one after another, which
is one of the runs of the children's steps in which no read of the offset is disturbed.

The records that no child has written come out as the empty word with frequency 0, so
the two programs agree exactly when there are `K` words that rank before it.
-/

namespace Cs342.TopK

open Library

/-! ## The program -/

/-- The child's loop over its results; `junk` is what lies behind the word copied to `cur`. -/
def writeResults (junk : ℤ → ℕ → Byte) (seg : Segment) (cur : ℤ) : List Pair → Segment
  | [] => seg
  | r :: rest =>
    let seg := { seg with bytes := seg.bytes.write cur (copied r.first (junk cur)) }
    let seg := { seg with offset := toInt (seg.offset + 64) }
    let seg := { seg with bytes := seg.bytes.write (cur + 64) (intBytes r.second) }
    let seg := { seg with offset := toInt (seg.offset + 4) }
    writeResults junk seg (cur + 68) rest

/-- A whole child. One that follows a null pointer ends before it writes. -/
def child (K : ℕ) (junk : ℤ → ℕ → Byte) (seg : Segment) (file : List Byte) : Segment :=
  match worker K file with
  | none => seg
  | some res => writeResults junk seg seg.offset res

/-- The pairs that are written when the children run one after another. -/
def proctopk (K : ℕ) (files : List (List Byte)) (junk : ℤ → ℕ → Byte) : Option (List Pair) := do
  let seg := files.foldl (child K junk) ⟨0, fun _ => nul⟩
  let recs ← seg.decode (shmemSize files.length K) (rounds files.length K) 0
  let head := WordList.dummy.insertAll recs
  head.topKFrequent K

/-- How many records the children write. -/
def written (K : ℕ) (files : List (List Byte)) : ℕ :=
  (files.map fun file => min K (fileWords file).dedup.length).sum

/-! ## One child after another -/

namespace Results

variable {r : Results} {s : Shared r.N} {c : Fin r.N} {junk : ℤ → ℕ → Byte}

theorem careful_step (junk : ℕ → Byte) {seg : Segment} {child : Child}
    (hstep : Child.step (r.res c) junk s.seg (s.children c) = some (seg, child))
    (hu : s.children c ≠ .start ∨ ∀ d, ¬ (s.children d).Writing) :
    r.careful.step s ⟨seg, Function.update s.children c child⟩ := by
  refine ⟨(c, junk), System.guarded_eq_some.mpr ⟨fun hstart _ => ?_, by simp [act, hstep]⟩⟩
  exact hu.resolve_left (not_not_intro hstart)

/-- The steps of a child in its loop, with none of another child between them. -/
theorem steps_writeResults {cur : ℤ} {rest : List Pair} (hc : s.children c = .atRecord cur rest) :
    r.careful.Steps s
      ⟨writeResults junk s.seg cur rest, Function.update s.children c .exited⟩ := by
  induction rest generalizing s cur with
  | nil => exact .single (careful_step (junk cur) (by rw [hc]; rfl) (.inl (by simp [hc])))
  | cons p rest ih =>
    have step {t : Shared r.N} {seg : Segment} {child child' : Child}
        (ht : t.children = Function.update s.children c child) (hstart : child ≠ .start)
        (hstep : Child.step (r.res c) (junk cur) t.seg child = some (seg, child')) :
        r.careful.step t ⟨seg, Function.update s.children c child'⟩ := by
      have := careful_step (s := t) (c := c) (junk cur) (by simpa [ht] using hstep)
        (.inl (by simpa [ht] using hstart))
      simpa [ht] using this
    have hs : s.children = Function.update s.children c (.atRecord cur (p :: rest)) := by
      rw [← hc, Function.update_eq_self]
    have hrest (seg : Segment) : r.careful.Steps
        ⟨seg, Function.update s.children c (.atRecord (cur + 68) rest)⟩
        ⟨writeResults junk seg (cur + 68) rest, Function.update s.children c .exited⟩ := by
      simpa using @ih ⟨seg, Function.update s.children c (.atRecord (cur + 68) rest)⟩ (cur + 68)
        (by simp)
    refine .head (step hs (by simp) rfl) ?_
    refine .head (step rfl (by simp) rfl) ?_
    refine .head (step rfl (by simp) rfl) ?_
    exact .head (step rfl (by simp) rfl) (hrest _)

/-- All steps of a child, while no other child is writing. -/
theorem steps_child (junk : ℤ → ℕ → Byte) (hc : s.children c = .start)
    (hidle : ∀ d, ¬ (s.children d).Writing) :
    r.careful.Steps s ⟨writeResults junk s.seg s.seg.offset (r.res c),
      Function.update s.children c .exited⟩ := by
  have hread : r.careful.step s
      ⟨s.seg, Function.update s.children c (.atRecord s.seg.offset (r.res c))⟩ :=
    careful_step (junk 0) (by rw [hc]; rfl) (.inr hidle)
  have hloop := @steps_writeResults r
    ⟨s.seg, Function.update s.children c (.atRecord s.seg.offset (r.res c))⟩ c junk
    s.seg.offset (r.res c) (by simp)
  exact .head hread (by simpa using hloop)

/-- The segment after the children `cs` have run one after another. -/
def serial (r : Results) (junk : ℤ → ℕ → Byte) (cs : List (Fin r.N)) (seg : Segment) : Segment :=
  cs.foldl (fun seg c => writeResults junk seg seg.offset (r.res c)) seg

theorem steps_serial (junk : ℤ → ℕ → Byte) {cs : List (Fin r.N)} (hnd : cs.Nodup)
    (hcs : ∀ c ∈ cs, s.children c = .start) (hidle : ∀ d, ¬ (s.children d).Writing) :
    ∃ t, r.careful.Steps s t ∧ t.seg = r.serial junk cs s.seg ∧
      ∀ c, t.children c = if c ∈ cs then .exited else s.children c := by
  induction cs generalizing s with
  | nil => exact ⟨s, .refl, rfl, by simp⟩
  | cons c cs ih =>
    obtain ⟨hc, hnd⟩ := List.nodup_cons.mp hnd
    obtain ⟨t, hsteps, hseg, ht⟩ := ih hnd
      (s := ⟨writeResults junk s.seg s.seg.offset (r.res c),
        Function.update s.children c .exited⟩)
      (fun d hd => by
        have hdc : d ≠ c := fun e => hc (e ▸ hd)
        simpa [hdc] using hcs d (List.mem_cons_of_mem _ hd))
      (fun d => by
        rcases eq_or_ne d c with rfl | hdc
        · simp [Child.Writing]
        · simpa [hdc] using hidle d)
    refine ⟨t, (steps_child junk (hcs c (by simp)) hidle).trans hsteps, hseg, fun d => ?_⟩
    rw [ht]
    rcases eq_or_ne d c with rfl | hdc
    · simp
    · simp [hdc]

/-- Running the children one after another is a run in which no read is disturbed. -/
theorem reachable_serial (r : Results) (junk : ℤ → ℕ → Byte) :
    ∃ t, r.careful.Reachable t ∧ (∀ c, t.children c = .exited) ∧
      t.seg = r.serial junk (List.finRange r.N) ⟨0, fun _ => nul⟩ := by
  obtain ⟨t, hsteps, hseg, ht⟩ := @steps_serial r ⟨⟨0, fun _ => nul⟩, fun _ => .start⟩ junk
    (List.finRange r.N) (List.nodup_finRange _) (fun _ _ => rfl) fun _ h => h
  exact ⟨t, ⟨_, ⟨rfl, fun _ => rfl⟩, hsteps⟩, fun c => by simp [ht], hseg⟩

end Results

/-! ## The results of the children -/

variable {K : ℕ} {files : List (List Byte)} {file : List Byte} {junk : ℤ → ℕ → Byte}

/-- What a child has to write. -/
def found (K : ℕ) (file : List Byte) : List Pair := (worker K file).getD []

theorem child_eq (K : ℕ) (junk : ℤ → ℕ → Byte) (seg : Segment) (file : List Byte) :
    child K junk seg file = writeResults junk seg seg.offset (found K file) := by
  rw [child, found]
  cases worker K file <;> rfl

theorem found_record (h : fileWords file ≠ []) :
    (found K file).map Pair.record = top K (ones (fileWords file)) := by
  obtain ⟨res, hres, hrec⟩ := worker_eq K h
  simpa [found, hres] using hrec

theorem mem_found {p : Pair} (h : fileWords file ≠ []) (hp : p ∈ found K file) :
    p.first ∈ fileWords file ∧ p.second = (fileWords file).count p.first := by
  have hmem : p.record ∈ top K (ones (fileWords file)) :=
    found_record h ▸ List.mem_map_of_mem hp
  obtain ⟨⟨hw, -⟩, hx⟩ := mem_top.mp hmem
  exact ⟨mem_items_ones.mp hw, hx.trans (tally_ones _ _)⟩

theorem flatMap_found_record (hwords : ∀ file ∈ files, fileWords file ≠ []) :
    (files.flatMap (found K)).map Pair.record = (parts files).flatMap (top K) := by
  rw [List.map_flatMap, parts, List.flatMap_map]
  exact List.flatMap_congr fun file hfile => found_record (hwords file hfile)

theorem length_found (h : fileWords file ≠ []) :
    (found K file).length = min K (fileWords file).dedup.length := by
  rw [← List.length_map Pair.record, found_record h, length_top, (items_ones_perm _).length_eq]

theorem length_flatMap_found (hwords : ∀ file ∈ files, fileWords file ≠ []) :
    (files.flatMap (found K)).length = written K files := by
  rw [List.length_flatMap, written]
  exact congrArg List.sum (List.map_congr_left fun file hfile => length_found (hwords file hfile))

/-- Files that a program can count: of words that fit in a record, with counts that fit in
an `int`. -/
structure Countable (files : List (List Byte)) : Prop where
  words : ∀ file ∈ files, fileWords file ≠ []
  length : ∀ w ∈ files.flatMap fileWords, w.length < 64
  count : ∀ w, (files.flatMap fileWords).count w < 2 ^ 31

/-- The results of the children of such files. -/
def Countable.results (h : Countable files) (K : ℕ) : Results where
  N := files.length
  K := K
  res c := found K (files.get c)
  size_le c := by
    rw [length_found (h.words _ (List.get_mem ..))]
    exact min_le_left _ _
  word_length c p hp := by
    obtain ⟨hw, -⟩ := mem_found (h.words _ (List.get_mem ..)) hp
    exact h.length _ (List.mem_flatMap.mpr ⟨_, List.get_mem .., hw⟩)
  word_nul c p hp := nul_not_mem_fileWords (mem_found (h.words _ (List.get_mem ..)) hp).1
  freq_int c p hp := by
    obtain ⟨-, hx⟩ := mem_found (h.words _ (List.get_mem ..)) hp
    have hle : (fileWords (files.get c)).count p.first ≤
        (files.flatMap fileWords).count p.first :=
      (List.sublist_flatten_of_mem (List.mem_map_of_mem (List.get_mem ..))).count_le _
    have := h.count p.first
    omega

theorem Countable.all_results (h : Countable files) (K : ℕ) :
    (h.results K).all = (files.flatMap (found K) : Multiset Pair) := by
  have hsum (fs : List (List Byte)) : (fs.map fun file => (found K file : Multiset Pair)).sum =
      (fs.flatMap (found K) : Multiset Pair) := by
    induction fs with
    | nil => rfl
    | cons file fs ih => rw [List.map_cons, List.sum_cons, ih, List.flatMap_cons, Multiset.coe_add]
  rw [← hsum, ← Fin.sum_univ_fun_getElem]
  rfl

theorem Countable.serial_results (h : Countable files) (K : ℕ) (junk : ℤ → ℕ → Byte)
    (seg : Segment) : (h.results K).serial junk (List.finRange (h.results K).N) seg =
      files.foldl (child K junk) seg := by
  conv_rhs => rw [← List.map_get_finRange files, List.foldl_map]
  simp only [child_eq]
  rfl

/-- The parent decodes the results of all children, in some order, and then empty records. -/
theorem Countable.decode (h : Countable files) (hrounds : files.length * K < 2 ^ 31)
    (hfits : 68 * written K files < 2 ^ 31) :
    ∃ log, log.Perm (files.flatMap (found K)) ∧
      (files.foldl (child K junk) ⟨0, fun _ => nul⟩).decode (shmemSize files.length K)
        (rounds files.length K) 0 =
        some (log ++ List.replicate (files.length * K - written K files) ⟨[], 0⟩) := by
  have hcard : (h.results K).all.card = written K files := by
    rw [h.all_results, Multiset.coe_card, length_flatMap_found h.words]
  obtain ⟨t, hreach, hexit, hseg⟩ := (h.results K).reachable_serial junk
  obtain ⟨log, hlog⟩ := Results.careful_inv (hcard ▸ hfits) hreach
  obtain ⟨hall, hdec⟩ := hlog.decoded hrounds hexit
  have hlen : log.length = written K files := by rw [← hcard, ← hall, Multiset.coe_card]
  rw [Results.decoded, hseg, h.serial_results, hlen] at hdec
  exact ⟨log, Multiset.coe_eq_coe.mp (hall.trans (h.all_results K)), hdec⟩

/-! ## What it writes -/

/-- The parent ranks what the children have kept, and the empty word of the other records. -/
theorem proctopk_eq (hK : 1 ≤ K) (hN : files ≠ []) (h : Countable files)
    (hrounds : files.length * K < 2 ^ 31) (hfits : 68 * written K files < 2 ^ 31) :
    ∃ res, proctopk K files junk = some res ∧
      res.map Pair.record = top K ((parts files).flatMap (top K) ++
        List.replicate (files.length * K - written K files) ([], 0)) := by
  obtain ⟨log, hperm, hdec⟩ := @Countable.decode K files junk h hrounds hfits
  have hrec := hperm.map Pair.record
  rw [flatMap_found_record h.words] at hrec
  have hne : log ≠ [] := by
    rintro rfl
    exact flatMap_top_ne_nil hK hN h.words hrec.symm.eq_nil
  set empty := List.replicate (files.length * K - written K files) (⟨[], 0⟩ : Pair)
  have hword : ∀ p ∈ (log ++ empty).head?, p.first ≠ [] := by
    intro p hp
    rw [List.head?_append_of_ne_nil _ hne] at hp
    exact ne_nil_of_mem_parts
      (hrec.mem_iff.mp (List.mem_map_of_mem (List.mem_of_mem_head? hp)))
  obtain ⟨res, hres, htop⟩ := topKFrequent_insertAll (by simp [hne]) hword K
  refine ⟨res, by simp [proctopk, hdec, hres], htop.trans ?_⟩
  rw [List.map_append, Int.toNat_natCast, top_perm (hrec.append_right _)]
  simp [empty, Pair.record]

/-- Fewer than `K` words leave a record empty. -/
theorem written_lt (hN : files ≠ []) (h : (files.flatMap fileWords).dedup.length < K) :
    written K files < files.length * K := by
  have hle : ∀ x ∈ files.map fun file => min K (fileWords file).dedup.length,
      x ≤ (files.flatMap fileWords).dedup.length := by
    intro x hx
    obtain ⟨file, hfile, rfl⟩ := List.mem_map.mp hx
    refine (min_le_right _ _).trans (List.subperm_of_subset (List.nodup_dedup _) ?_).length_le
    intro w hw
    rw [List.mem_dedup] at hw ⊢
    exact List.mem_flatMap.mpr ⟨file, hfile, hw⟩
  have hsum := List.sum_le_card_nsmul _ _ hle
  rw [List.length_map, smul_eq_mul] at hsum
  exact hsum.trans_lt ((Nat.mul_lt_mul_left (List.length_pos_iff.mpr hN)).mpr h)

/-- The two programs write the same pairs exactly when the files have `K` words together; `N * K`
and the offset are to fit in an `int`. -/
theorem proctopk_eq_threadtopk (hK : 1 ≤ K) (hN : files ≠ []) (h : Countable files)
    (hrounds : files.length * K < 2 ^ 31) (hfits : 68 * written K files < 2 ^ 31)
    (junk : ℤ → ℕ → Byte) :
    proctopk K files junk = threadtopk K files ↔
      K ≤ (files.flatMap fileWords).dedup.length := by
  obtain ⟨res, hproc, hres⟩ := @proctopk_eq K files junk hK hN h hrounds hfits
  obtain ⟨res', hthread, hres'⟩ := @threadtopk_eq K files (by omega) hN h.words
  rw [hproc, hthread, Option.some.injEq,
    ← (List.map_injective_iff.mpr Pair.record_injective).eq_iff, hres, hres', Int.toNat_natCast]
  have hitems : K ≤ (items ((parts files).flatMap (top K))).length ↔
      K ≤ (files.flatMap fileWords).dedup.length := by
    rw [le_length_items_merged, parts_flatten, (items_ones_perm _).length_eq]
  rcases Nat.eq_zero_or_pos (files.length * K - written K files) with hn | hn
  · -- all records are written, which takes `K` words in each file
    have hfull : ¬ (files.flatMap fileWords).dedup.length < K := fun hlt => by
      have := written_lt hN hlt
      omega
    simp [hn, Nat.not_lt.mp hfull]
  · refine Iff.trans (top_append_replicate ?_ ?_ hn.ne') hitems
    · intro r hr
      obtain ⟨part, hpart, hr⟩ := List.mem_flatMap.mp hr
      exact top_pos (parts_pos part hpart) r hr
    · intro hnil
      obtain ⟨x, hx⟩ := mem_items.mp hnil
      exact ne_nil_of_mem_parts (p := ⟨[], x⟩) hx rfl

/-- One file with the word A alone. -/
def alone : List (List Byte) := [[byte 65]]

theorem countable_alone : Countable alone where
  words := by decide +kernel
  length := by decide +kernel
  count w := (List.count_le_length).trans_lt (by decide +kernel)

theorem proctopk_eq_threadtopk_alone :
    proctopk 1 alone (fun _ _ => nul) = threadtopk 1 alone ↔
      1 ≤ (alone.flatMap fileWords).dedup.length :=
  proctopk_eq_threadtopk (by decide) (by decide) countable_alone (by decide) (by decide +kernel) _

/-- With `K` two the parent writes a second line, for the record that stays empty. -/
theorem proctopk_alone :
    Countable alone ∧ proctopk 2 alone (fun _ _ => nul) = some [⟨[byte 65], 1⟩, ⟨[], 0⟩] ∧
      proctopk 2 alone (fun _ _ => nul) ≠ threadtopk 2 alone := by
  have hproc : proctopk 2 alone (fun _ _ => nul) = some [⟨[byte 65], 1⟩, ⟨[], 0⟩] := by
    decide +kernel
  refine ⟨countable_alone, hproc, ?_⟩
  rw [hproc]
  decide +kernel

end Cs342.TopK
