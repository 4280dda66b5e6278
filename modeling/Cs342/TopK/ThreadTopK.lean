import Mathlib.Data.List.TakeWhile
import Cs342.TopK.WordList

/-!
# Top-K with threads (threadtopk.c)

Each worker counts the words of one file and keeps the first `K` of their ranking;
`main` counts these together and keeps the first `K` again. A file is given by its
bytes, and what is written by the pairs of its lines. `main` waits for a worker
before it starts the next one, so they run one after another.

The result is the ranking of all files together exactly when no worker cuts off a
word that belongs to it.
-/

namespace Cs342.TopK

open Library

/-! ## Reading a file -/

/-- The delimiters: blank, tab, carriage return, newline, vertical tab and form feed. -/
def exceptions : List Byte := [byte 32, byte 9, byte 13, byte 10, byte 11, byte 12]

/-- One call of `strtok`: the next token, and where the next call goes on. -/
def strtok (s : CString) : Option (CString × CString) :=
  match s.dropWhile (· ∈ exceptions) with
  | [] => none
  | c :: s => some (c :: s.takeWhile (· ∉ exceptions), (s.dropWhile (· ∉ exceptions)).drop 1)

/-- The first `n` tokens. -/
def tokens : ℕ → CString → List CString
  | 0, _ => []
  | n + 1, s =>
    match strtok s with
    | none => []
    | some (tkn, rest) => tkn :: tokens n rest

def islower (c : Byte) : Bool := 97 ≤ c.val ∧ c.val ≤ 122

def toupper (c : Byte) : Byte := if islower c then byte (c.val - 32) else c

def uppercase (str : CString) : CString := str.map toupper

/-- The words of a file, in order. The text ends at the first zero byte of the file, and each
token takes at least one byte of it. -/
def fileWords (file : List Byte) : List CString :=
  let text := file.takeWhile (· ≠ nul)
  (tokens text.length text).map uppercase

theorem strtok_length {s tkn rest : CString} (h : strtok s = some (tkn, rest)) :
    rest.length < s.length := by
  have hle := (List.dropWhile_sublist (l := s) (· ∈ exceptions)).length_le
  cases hs : s.dropWhile (· ∈ exceptions) with
  | nil => simp [strtok, hs] at h
  | cons c t =>
    have hle' := (List.dropWhile_sublist (l := t) (· ∉ exceptions)).length_le
    simp only [strtok, hs, Option.some.injEq, Prod.mk.injEq] at h
    rw [hs, List.length_cons] at hle
    rw [← h.2, List.length_drop]
    omega

/-- Allowing more tokens than the text has bytes finds no more. -/
theorem tokens_eq {s : CString} {n m : ℕ} (hn : s.length ≤ n) (hm : s.length ≤ m) :
    tokens n s = tokens m s := by
  induction n generalizing s m with
  | zero =>
    obtain rfl := List.length_eq_zero_iff.mp (Nat.le_zero.mp hn)
    cases m <;> rfl
  | succ n ih =>
    cases m with
    | zero =>
      obtain rfl := List.length_eq_zero_iff.mp (Nat.le_zero.mp hm)
      rfl
    | succ m =>
      simp only [tokens]
      cases h : strtok s with
      | none => rfl
      | some r =>
        obtain ⟨tkn, rest⟩ := r
        have := strtok_length h
        have hrest : tokens n rest = tokens m rest := ih (by omega) (by omega)
        simp only [hrest]

theorem ne_nil_of_mem_tokens {w s : CString} {n : ℕ} (h : w ∈ tokens n s) : w ≠ [] := by
  induction n generalizing s with
  | zero => simp [tokens] at h
  | succ n ih =>
    cases hs : s.dropWhile (· ∈ exceptions) with
    | nil => simp [tokens, strtok, hs] at h
    | cons c t =>
      simp only [tokens, strtok, hs, List.mem_cons] at h
      rcases h with rfl | h
      · exact List.cons_ne_nil _ _
      · exact ih h

theorem ne_nil_of_mem_fileWords {w : CString} {file : List Byte} (h : w ∈ fileWords file) :
    w ≠ [] := by
  obtain ⟨tkn, ht, rfl⟩ := List.mem_map.mp h
  simpa [uppercase] using ne_nil_of_mem_tokens ht

theorem subset_of_strtok {s tkn rest : CString} (h : strtok s = some (tkn, rest)) :
    tkn ⊆ s ∧ rest ⊆ s := by
  cases hs : s.dropWhile (· ∈ exceptions) with
  | nil => simp [strtok, hs] at h
  | cons c t =>
    have hsub : c :: t ⊆ s := hs ▸ (List.dropWhile_sublist _).subset
    simp only [strtok, hs, Option.some.injEq, Prod.mk.injEq] at h
    obtain ⟨rfl, rfl⟩ := h
    obtain ⟨hc, ht⟩ := List.cons_subset.mp hsub
    refine ⟨List.cons_subset.mpr ⟨hc, ?_⟩, ?_⟩
    · exact List.Subset.trans (List.takeWhile_sublist _).subset ht
    · exact List.Subset.trans
        ((List.drop_sublist _ _).trans (List.dropWhile_sublist _)).subset ht

theorem subset_of_mem_tokens {w s : CString} {n : ℕ} (h : w ∈ tokens n s) : w ⊆ s := by
  induction n generalizing s with
  | zero => simp [tokens] at h
  | succ n ih =>
    cases hs : strtok s with
    | none => simp [tokens, hs] at h
    | some p =>
      obtain ⟨tkn, rest⟩ := p
      obtain ⟨htkn, hrest⟩ := subset_of_strtok hs
      simp only [tokens, hs, List.mem_cons] at h
      rcases h with rfl | h
      · exact htkn
      · exact List.Subset.trans (ih h) hrest

theorem toupper_ne_nul {c : Byte} (h : c ≠ nul) : toupper c ≠ nul := by
  revert c
  decide +kernel

theorem nul_not_mem_fileWords {w : CString} {file : List Byte} (h : w ∈ fileWords file) :
    nul ∉ w := by
  obtain ⟨tkn, ht, rfl⟩ := List.mem_map.mp h
  intro hnul
  obtain ⟨c, hc, hcw⟩ := List.mem_map.mp hnul
  have hfile : c ∈ file.takeWhile (· ≠ nul) := subset_of_mem_tokens ht hc
  exact toupper_ne_nul (by simpa using List.mem_takeWhile_imp hfile) hcw

/-! ## The program -/

/-- Count the words of a file. -/
def countWords (words : List CString) : WordList :=
  words.foldl (fun head word => head.insert word word.length 1) .dummy

def worker (K : ℤ) (file : List Byte) : Option (List Pair) :=
  (countWords (fileWords file)).topKFrequent K

/-- The pairs that are written, unless a null pointer is followed. -/
def threadtopk (K : ℤ) (files : List (List Byte)) : Option (List Pair) := do
  let results ← files.mapM (worker K)
  let head := results.foldl WordList.insertAll .dummy
  head.topKFrequent K

/-! ## What it should write -/

/-- The first `K` distinct words with their counts, the most frequent first and in the order
of `strcmp` where counts are equal. -/
def mostFrequent (K : ℕ) (words : List CString) : List Pair :=
  let le v w := words.count w < words.count v ∨
    words.count v = words.count w ∧ strcmp v w ≤ 0
  ((words.dedup.insertionSort le).take K).map fun w => ⟨w, words.count w⟩

/-- How many distinct words come before `w` in that order. -/
def ahead (words : List CString) (w : CString) : ℕ :=
  (words.dedup.filter fun v => words.count w < words.count v ∨
    words.count v = words.count w ∧ strcmp v w < 0).length

/-- A word that is one of the first `K` of all files is one of the first `K` in every file
it occurs in. -/
def NoneCut (K : ℕ) (files : List (List Byte)) : Prop :=
  ∀ w ∈ files.flatMap fileWords, ahead (files.flatMap fileWords) w < K →
    ∀ file ∈ files, w ∈ fileWords file → ahead (fileWords file) w < K

/-! ## Counting words as tallies -/

def Pair.one (w : CString) : Pair := ⟨w, 1⟩

/-- One record for every occurrence of a word. -/
def ones (words : List CString) : Records CString := words.map fun w => (w, 1)

variable {words : List CString} {v w : CString} {K : ℤ}

theorem mem_items_ones : w ∈ items (ones words) ↔ w ∈ words := by simp [mem_items, ones]

theorem tally_ones (words : List CString) (w : CString) :
    tally (ones words) w = words.count w := by
  induction words with
  | nil => rfl
  | cons v words ih =>
    rw [ones, List.map_cons, ← ones, tally_cons, ih, List.count_cons]
    by_cases h : v = w <;> simp [h, add_comm]

theorem before_ones : Before (tally (ones words)) v w ↔
    words.count w < words.count v ∨ words.count v = words.count w ∧ strcmp v w < 0 := by
  simp [Before, tally_ones, strcmp_neg_iff]

theorem items_ones_perm (words : List CString) : (items (ones words)).Perm words.dedup := by
  rw [List.perm_ext_iff_of_nodup (nodup_items _) (List.nodup_dedup _)]
  intro w
  rw [mem_items_ones, List.mem_dedup]

theorem ahead_eq_rank (words : List CString) (w : CString) :
    ahead words w = rank (ones words) w := by
  rw [ahead, rank, ((items_ones_perm words).filter _).length_eq]
  simp only [before_ones]

theorem mostFrequent_record (K : ℕ) (words : List CString) :
    (mostFrequent K words).map Pair.record = top K (ones words) := by
  have hle : (fun v w => words.count w < words.count v ∨
      words.count v = words.count w ∧ strcmp v w ≤ 0) =
      fun v w => ¬ Before (tally (ones words)) w v := by
    funext v w
    rw [before_ones, eq_iff_iff]
    have hflip : 0 < strcmp v w ↔ strcmp w v < 0 := strcmp_pos_iff.trans strcmp_neg_iff.symm
    omega
  have hranking : words.dedup.insertionSort (fun v w => words.count w < words.count v ∨
      words.count v = words.count w ∧ strcmp v w ≤ 0) = ranking (ones words) := by
    refine eq_ranking ?_ (fun w => ?_) ?_
    · exact (List.perm_insertionSort _ _).nodup_iff.mpr (List.nodup_dedup _)
    · rw [List.mem_insertionSort, List.mem_dedup, mem_items_ones]
    · simp only [hle]
      exact List.pairwise_insertionSort _ _
  rw [mostFrequent, List.map_map]
  simp only [hranking, top]
  exact List.map_congr_left fun w _ => by simp [Pair.record, tally_ones]

/-! ## What it writes -/

theorem Pair.record_injective : Function.Injective Pair.record := by
  rintro ⟨v, x⟩ ⟨w, y⟩ h
  simpa [Pair.record] using h

theorem insertAll_append (l : WordList) (ps qs : List Pair) :
    l.insertAll (ps ++ qs) = (l.insertAll ps).insertAll qs := List.foldl_append

theorem foldl_insertAll (l : WordList) (results : List (List Pair)) :
    results.foldl WordList.insertAll l = l.insertAll results.flatten := by
  induction results generalizing l with
  | nil => rfl
  | cons res results ih => rw [List.foldl_cons, ih, List.flatten_cons, insertAll_append]

theorem countWords_eq (words : List CString) :
    countWords words = WordList.dummy.insertAll (words.map Pair.one) := by
  rw [countWords, WordList.insertAll, List.foldl_map]
  rfl

/-- Counting words one by one and ranking them gives the first `K` of their ranking. -/
theorem topKFrequent_countWords (K : ℤ) (h : words ≠ []) (hwords : ∀ w ∈ words, w ≠ []) :
    ∃ res, (countWords words).topKFrequent K = some res ∧
      res.map Pair.record = top K.toNat (ones words) := by
  have hrecord : words.map Pair.one ≠ [] := by simpa using h
  have hword : ∀ p ∈ (words.map Pair.one).head?, p.first ≠ [] := by
    intro p hp
    obtain ⟨w, hw, rfl⟩ := List.mem_map.mp (List.mem_of_mem_head? hp)
    exact hwords w hw
  obtain ⟨res, hres, htop⟩ := topKFrequent_insertAll hrecord hword K
  refine ⟨res, by rw [countWords_eq, hres], htop.trans ?_⟩
  rw [List.map_map]
  rfl

/-- What is returned is the first `K` distinct words, or all if there are fewer, each with the
number of its occurrences, the most frequent first and in the order of `strcmp` where they are
equal. -/
theorem topKFrequent_mostFrequent (h : words ≠ []) (hwords : ∀ w ∈ words, w ≠ []) (K : ℤ) :
    (countWords words).topKFrequent K = some (mostFrequent K.toNat words) ∧
      (mostFrequent K.toNat words).length = min K.toNat words.dedup.length := by
  constructor
  · obtain ⟨res, hres, hrec⟩ := topKFrequent_countWords K h hwords
    rw [← mostFrequent_record] at hrec
    rw [hres, List.map_injective_iff.mpr Pair.record_injective hrec]
  · simp [mostFrequent]

/-- The words BB, A, BB, C. -/
def fourWords : List CString := [[66, 66], [65], [66, 66], [67]].map (List.map byte)

example : mostFrequent 2 fourWords = [⟨[66, 66].map byte, 2⟩, ⟨[65].map byte, 1⟩] := by
  decide +kernel

theorem topKFrequent_mostFrequent_fourWords :
    (countWords fourWords).topKFrequent 2 = some (mostFrequent 2 fourWords) ∧
      (mostFrequent 2 fourWords).length = min 2 fourWords.dedup.length :=
  topKFrequent_mostFrequent (by decide) (by decide) 2

/-- A worker finds the first `K` words of its file. -/
theorem worker_eq (K : ℤ) {file : List Byte} (h : fileWords file ≠ []) :
    ∃ res, worker K file = some res ∧
      res.map Pair.record = top K.toNat (ones (fileWords file)) :=
  topKFrequent_countWords K h fun _ => ne_nil_of_mem_fileWords

variable {files : List (List Byte)}

/-- The records of the files, one list for each. -/
def parts (files : List (List Byte)) : List (Records CString) :=
  files.map fun file => ones (fileWords file)

theorem parts_flatten (files : List (List Byte)) :
    (parts files).flatten = ones (files.flatMap fileWords) := by
  simp [parts, ones, List.flatMap, List.map_flatten, Function.comp_def]

theorem parts_pos : ∀ p ∈ parts files, ∀ r ∈ p, 0 < r.2 := by
  simp [parts, ones]

theorem results_eq (hwords : ∀ file ∈ files, fileWords file ≠ []) :
    ∃ results, files.mapM (worker K) = some results ∧
      results.flatten.map Pair.record = (parts files).flatMap (top K.toNat) := by
  induction files with
  | nil => exact ⟨[], rfl, rfl⟩
  | cons file files ih =>
    obtain ⟨results, hres, hrec⟩ := ih fun f hf => hwords f (List.mem_cons_of_mem _ hf)
    obtain ⟨res, hw, htop⟩ := worker_eq K (hwords file (by simp))
    refine ⟨res :: results, by simp [List.mapM_cons, hw, hres], ?_⟩
    rw [List.flatten_cons, List.map_append, hrec, htop]
    rfl

theorem ne_nil_of_mem_parts {k : ℕ} {p : Pair}
    (h : p.record ∈ (parts files).flatMap (top k)) : p.first ≠ [] := by
  obtain ⟨part, hpart, hp⟩ := List.mem_flatMap.mp h
  obtain ⟨file, -, rfl⟩ := List.mem_map.mp hpart
  exact ne_nil_of_mem_fileWords (mem_items_ones.mp (mem_top.mp hp).1.1)

theorem flatMap_top_ne_nil {k : ℕ} (hk : 0 < k) (hN : files ≠ [])
    (hwords : ∀ file ∈ files, fileWords file ≠ []) : (parts files).flatMap (top k) ≠ [] := by
  obtain ⟨file, files, rfl⟩ := List.exists_cons_of_ne_nil hN
  have hones : ones (fileWords file) ≠ [] := by simpa [ones] using hwords file (by simp)
  simp [parts, top_ne_nil hk hones]

/-- The program ranks what the workers have kept. -/
theorem threadtopk_eq (hK : 1 ≤ K) (hN : files ≠ [])
    (hwords : ∀ file ∈ files, fileWords file ≠ []) :
    ∃ res, threadtopk K files = some res ∧
      res.map Pair.record = top K.toNat ((parts files).flatMap (top K.toNat)) := by
  obtain ⟨results, hres, hrec⟩ := results_eq (K := K) hwords
  have hne : results.flatten ≠ [] := by
    have := flatMap_top_ne_nil (k := K.toNat) (by omega) hN hwords
    rwa [← hrec, ne_eq, List.map_eq_nil_iff] at this
  have hword : ∀ p ∈ results.flatten.head?, p.first ≠ [] := fun p hp =>
    ne_nil_of_mem_parts (hrec ▸ List.mem_map_of_mem (List.mem_of_mem_head? hp))
  obtain ⟨res, htop, hrank⟩ := topKFrequent_insertAll hne hword K
  exact ⟨res, by simp [threadtopk, hres, foldl_insertAll, htop], hrec ▸ hrank⟩

theorem noneCut_iff {k : ℕ} : NoneCut k files ↔ NotCut k (parts files) := by
  rw [NotCut, parts_flatten]
  simp [NoneCut, mem_items_ones, ahead_eq_rank, parts]

/-- The pairs written are the most frequent words of all files exactly when no file cuts off
one of them. -/
theorem threadtopk_mostFrequent (hK : 1 ≤ K) (hN : files ≠ [])
    (hwords : ∀ file ∈ files, fileWords file ≠ []) :
    threadtopk K files = some (mostFrequent K.toNat (files.flatMap fileWords)) ↔
      NoneCut K.toNat files := by
  obtain ⟨res, hres, hrec⟩ := threadtopk_eq hK hN hwords
  rw [hres, Option.some.injEq, ← (List.map_injective_iff.mpr Pair.record_injective).eq_iff, hrec,
    mostFrequent_record, ← parts_flatten, top_merge parts_pos, noneCut_iff]

/-- The word B is the second of either file and the first of both together. -/
def secondTwice : List (List Byte) :=
  [[65, 32, 65, 32, 65, 32, 66, 32, 66].map byte, [67, 32, 67, 32, 67, 32, 66, 32, 66].map byte]

theorem threadtopk_mostFrequent_secondTwice :
    threadtopk 2 secondTwice = some (mostFrequent 2 (secondTwice.flatMap fileWords)) ↔
      NoneCut 2 secondTwice :=
  threadtopk_mostFrequent (by decide) (by decide) (by decide +kernel)

/-- With `K` one each worker cuts it off. -/
theorem threadtopk_secondTwice :
    (∀ file ∈ secondTwice, fileWords file ≠ []) ∧
      threadtopk 1 secondTwice ≠ some (mostFrequent 1 (secondTwice.flatMap fileWords)) := by
  decide +kernel

/-! ## The order of the input -/

/-- The files in another order, with the words of each in another order. -/
def Reordered (files files' : List (List Byte)) : Prop :=
  ∃ mid, List.Forall₂ (fun file file' => (fileWords file).Perm (fileWords file')) files mid ∧
    mid.Perm files'

variable {files' : List (List Byte)}

theorem Reordered.forall_ne_nil (h : Reordered files files')
    (hwords : ∀ file ∈ files, fileWords file ≠ []) : ∀ file ∈ files', fileWords file ≠ [] := by
  obtain ⟨mid, hmid, hperm⟩ := h
  intro file hfile
  obtain ⟨i, hi, rfl⟩ := List.getElem_of_mem (hperm.mem_iff.mpr hfile)
  have hi' : i < files.length := hmid.length_eq ▸ hi
  intro hnil
  have hpair : (fileWords files[i]).Perm (fileWords mid[i]) := hmid.get hi' hi
  exact hwords _ (List.getElem_mem hi') (List.perm_nil.mp (hnil ▸ hpair))

/-- What the workers keep does not depend on the order of the words, nor, but for its order, on
that of the files. -/
theorem Reordered.kept (h : Reordered files files') (k : ℕ) :
    ((parts files).flatMap (top k)).Perm ((parts files').flatMap (top k)) := by
  obtain ⟨mid, hmid, hperm⟩ := h
  have hsame : (parts files).flatMap (top k) = (parts mid).flatMap (top k) := by
    clear hperm
    induction hmid with
    | nil => rfl
    | cons hword _ ih =>
      have htop := top_perm (k := k) (hword.map fun w => (w, (1 : ℤ)))
      simpa [parts, ones] using congrArg₂ (· ++ ·) htop ih
  rw [hsame]
  exact (hperm.map _).flatMap_right _

/-- Permuting the files, and the words inside each of them, leaves what is written unchanged. -/
theorem threadtopk_reordered (hK : 1 ≤ K) (hwords : ∀ file ∈ files, fileWords file ≠ [])
    (h : Reordered files files') : threadtopk K files' = threadtopk K files := by
  have hlength : files'.length = files.length := by
    obtain ⟨mid, hmid, hperm⟩ := h
    rw [← hperm.length_eq, hmid.length_eq]
  by_cases hN : files = []
  · subst hN
    rw [List.length_eq_zero_iff.mp hlength]
  · have hN' : files' ≠ [] := by
      rwa [← List.length_pos_iff, hlength, List.length_pos_iff]
    obtain ⟨res, hres, hrec⟩ := threadtopk_eq hK hN hwords
    obtain ⟨res', hres', hrec'⟩ := threadtopk_eq hK hN' (h.forall_ne_nil hwords)
    rw [← top_perm (h.kept K.toNat), ← hrec] at hrec'
    rw [hres, hres', List.map_injective_iff.mpr Pair.record_injective hrec']

/-- The two files in the other order, with the words of each reversed. -/
theorem threadtopk_reordered_secondTwice :
    threadtopk 2 (secondTwice.map List.reverse).reverse = threadtopk 2 secondTwice := by
  refine threadtopk_reordered (by decide) (by decide +kernel)
    ⟨secondTwice.map List.reverse, ?_, (List.reverse_perm _).symm⟩
  exact .cons (by decide +kernel) (.cons (by decide +kernel) .nil)

end Cs342.TopK
