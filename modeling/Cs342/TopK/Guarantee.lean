import Cs342.TopK.ProcTopK

/-!
# What the written counts are worth

Where a file cuts off words that belong to the result, the counts that are written are too
small, though never too large. The file's own last count bounds what it has cut off, so
the cutoffs of all files together bound the error, and a word that fewer than `K` others
come near to is written in any case.
-/

namespace Cs342.TopK

open Library

/-- The count of the last word that a worker keeps; nothing is cut off from fewer than `K`. -/
def cutoff (K : ℕ) (file : List Byte) : ℤ :=
  ((mostFrequent K (fileWords file))[K - 1]?).elim 0 Pair.second

/-- What the files can have cut off from a word. -/
def slack (K : ℕ) (files : List (List Byte)) : ℤ := (files.map (cutoff K)).sum

/-- The distinct words other than `w` that may have been counted as often. -/
def rivals (K : ℕ) (files : List (List Byte)) (w : CString) : List CString :=
  (files.flatMap fileWords).dedup.filter fun v =>
    v ≠ w ∧ ((files.flatMap fileWords).count w : ℤ) ≤
      (files.flatMap fileWords).count v + slack K files

variable {files : List (List Byte)} {K : ℕ} {w : CString} {p : Pair}

theorem cutoff_eq (K : ℕ) (file : List Byte) :
    cutoff K file = Library.cutoff K (ones (fileWords file)) := by
  rw [cutoff, Library.cutoff, ← mostFrequent_record, List.getElem?_map]
  cases (mostFrequent K (fileWords file))[K - 1]? <;> rfl

theorem slack_eq (K : ℕ) (files : List (List Byte)) :
    slack K files = ((parts files).map (Library.cutoff K)).sum := by
  rw [slack, parts, List.map_map]
  exact congrArg List.sum (List.map_congr_left fun file _ => cutoff_eq K file)

theorem tally_parts (files : List (List Byte)) (w : CString) :
    tally (parts files).flatten w = (files.flatMap fileWords).count w := by
  rw [parts_flatten, tally_ones]

/-- The merged count of a word is its count but for the slack. -/
theorem merged_within (hK : 1 ≤ K) (files : List (List Byte)) (w : CString) :
    tally ((parts files).flatMap (top K)) w ≤ (files.flatMap fileWords).count w ∧
      ((files.flatMap fileWords).count w : ℤ) ≤
        tally ((parts files).flatMap (top K)) w + slack K files := by
  rw [← tally_parts, slack_eq]
  exact ⟨tally_merged_le parts_pos, tally_le_merged_add hK parts_pos⟩

theorem rank_le_rivals (hK : 1 ≤ K) (files : List (List Byte)) (w : CString) :
    rank ((parts files).flatMap (top K)) w ≤ (rivals K files w).length := by
  refine (rank_merged_le hK parts_pos).trans_eq ?_
  rw [parts_flatten, ((items_ones_perm _).filter _).length_eq, ← slack_eq]
  simp only [tally_ones, rivals]

/-- A word that is ahead of the slack is in the merged records. -/
theorem mem_items_merged (hK : 1 ≤ K)
    (hw : slack K files < (files.flatMap fileWords).count w) :
    w ∈ items ((parts files).flatMap (top K)) := by
  by_contra hmem
  have hle := (merged_within hK files w).2
  rw [tally_of_not_mem hmem] at hle
  omega

theorem merged_pos : ∀ r ∈ (parts files).flatMap (top K), 0 < r.2 := by
  intro r hr
  obtain ⟨part, hpart, hr⟩ := List.mem_flatMap.mp hr
  exact top_pos (parts_pos part hpart) r hr

theorem nil_notMem_merged : ([] : CString) ∉ items ((parts files).flatMap (top K)) := by
  intro hnil
  obtain ⟨x, hx⟩ := mem_items.mp hnil
  exact ne_nil_of_mem_parts (p := ⟨[], x⟩) hx rfl

/-- The thread version writes `K` lines, or one for each word. No count is too large or falls
short by more than the slack, and every word above the slack with fewer than `K` rivals is
written. -/
theorem threadtopk_within (hK : 1 ≤ K) (hN : files ≠ [])
    (hwords : ∀ file ∈ files, fileWords file ≠ []) :
    ∃ res, threadtopk K files = some res ∧
      res.length = min K (files.flatMap fileWords).dedup.length ∧
      (∀ p ∈ res, p.second ≤ (files.flatMap fileWords).count p.first ∧
        ((files.flatMap fileWords).count p.first : ℤ) ≤ p.second + slack K files) ∧
      ∀ w, slack K files < (files.flatMap fileWords).count w →
        (rivals K files w).length < K → ∃ p ∈ res, p.first = w := by
  obtain ⟨res, hres, hrec⟩ := @threadtopk_eq K files (by omega) hN hwords
  rw [Int.toNat_natCast] at hrec
  refine ⟨res, hres, ?_, fun p hp => ?_, fun w hw hfew => ?_⟩
  · rw [← List.length_map Pair.record, hrec, length_top, min_length_items_merged, parts_flatten,
      (items_ones_perm _).length_eq]
  · have hmem : p.record ∈ top K ((parts files).flatMap (top K)) :=
      hrec ▸ List.mem_map_of_mem hp
    have hcount : p.second = tally ((parts files).flatMap (top K)) p.first := (mem_top.mp hmem).2
    rw [hcount]
    exact merged_within hK files p.first
  · have hmem := mem_top.mpr ⟨⟨mem_items_merged hK hw, (rank_le_rivals hK files w).trans_lt hfew⟩,
      rfl⟩
    rw [← hrec] at hmem
    obtain ⟨p, hp, hpw⟩ := List.mem_map.mp hmem
    exact ⟨p, hp, congrArg Prod.fst hpw⟩

/-- Two files of which one word is the second most frequent in both: A A B and C C B. -/
def second : List (List Byte) :=
  [[65, 32, 65, 32, 66].map byte, [67, 32, 67, 32, 66].map byte]

/-- With `K` one, B is as frequent as the others and lost; the slack is four. -/
theorem threadtopk_within_second :
    ∃ res, threadtopk (1 : ℕ) second = some res ∧
      res.length = min 1 (second.flatMap fileWords).dedup.length ∧
      (∀ p ∈ res, p.second ≤ (second.flatMap fileWords).count p.first ∧
        ((second.flatMap fileWords).count p.first : ℤ) ≤ p.second + slack 1 second) ∧
      ∀ w, slack 1 second < (second.flatMap fileWords).count w →
        (rivals 1 second w).length < 1 → ∃ p ∈ res, p.first = w :=
  threadtopk_within (by decide) (by decide) (by decide +kernel)

/-- So it is for the process version, whose empty records come last. -/
theorem proctopk_within (hK : 1 ≤ K) (hN : files ≠ []) (h : Countable files)
    (hrounds : files.length * K < 2 ^ 31) (hfits : 68 * written K files < 2 ^ 31)
    (junk : ℤ → ℕ → Byte) :
    ∃ res, proctopk K files junk = some res ∧
      (∀ p ∈ res, p.second ≤ (files.flatMap fileWords).count p.first ∧
        ((files.flatMap fileWords).count p.first : ℤ) ≤ p.second + slack K files) ∧
      ∀ w, slack K files < (files.flatMap fileWords).count w →
        (rivals K files w).length < K → ∃ p ∈ res, p.first = w := by
  obtain ⟨res, hres, hrec⟩ := @proctopk_eq K files junk hK hN h hrounds hfits
  refine ⟨res, hres, fun p hp => ?_, fun w hw hfew => ?_⟩
  · have hmem := hrec ▸ List.mem_map_of_mem (f := Pair.record) hp
    have hcount : p.second = tally ((parts files).flatMap (top K)) p.first :=
      (mem_top.mp hmem).2.trans tally_append_replicate
    rw [hcount]
    exact merged_within hK files p.first
  · have hitem := mem_items_merged hK hw
    have hrank := (rank_le_rivals hK files w).trans_lt hfew
    have hmem : (w, tally ((parts files).flatMap (top K)) w) ∈ res.map Pair.record := by
      rw [hrec]
      rcases Nat.eq_zero_or_pos (files.length * K - written K files) with hn | hn
      · rw [hn, List.replicate_zero, List.append_nil]
        exact mem_top.mpr ⟨⟨hitem, hrank⟩, rfl⟩
      · refine mem_top.mpr ⟨⟨(items_append_replicate hn.ne').mpr (.inl hitem), ?_⟩,
          tally_append_replicate.symm⟩
        rwa [rank_append_replicate merged_pos nil_notMem_merged hn.ne' hitem]
    obtain ⟨p, hp, hpw⟩ := List.mem_map.mp hmem
    exact ⟨p, hp, congrArg Prod.fst hpw⟩

theorem proctopk_within_alone :
    ∃ res, proctopk 2 alone (fun _ _ => nul) = some res ∧
      (∀ p ∈ res, p.second ≤ (alone.flatMap fileWords).count p.first ∧
        ((alone.flatMap fileWords).count p.first : ℤ) ≤ p.second + slack 2 alone) ∧
      ∀ w, slack 2 alone < (alone.flatMap fileWords).count w →
        (rivals 2 alone w).length < 2 → ∃ p ∈ res, p.first = w :=
  proctopk_within (by decide) (by decide) countable_alone (by decide) (by decide +kernel) _

end Cs342.TopK
