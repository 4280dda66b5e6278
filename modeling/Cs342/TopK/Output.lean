import Cs342.Library.Strtoul
import Cs342.TopK.Guarantee

/-!
# The output file

Both programs write a line for each pair: the word, a blank and the number. A word is what the
tokenizer has left of a file, so it has no delimiter and no small letter, and the programs' own
reader finds the same words and numbers in the output again. The process version may write one line
more, for the records that no child has written; it has no word on it, so a reader that takes
words and numbers in turn is left with a single token there.
-/

namespace Cs342.TopK

open Library

/-- `"%s %d\n"` for each pair. -/
def outputText (res : List Pair) : List Byte :=
  res.flatMap fun p => p.first ++ byte 32 :: (intText p.second ++ [byte 10])

/-- Words and numbers in turn. -/
def pairsOf : List CString → List Pair
  | word :: freq :: rest => ⟨word, atoi freq⟩ :: pairsOf rest
  | _ => []

def readPairs (file : List Byte) : List Pair := pairsOf (fileWords file)

@[simp] theorem fileWords_nil : fileWords [] = [] := rfl

@[simp] theorem readPairs_nil : readPairs [] = [] := rfl

/-! ## What the words are made of -/

/-- A token in which `uppercase` finds nothing to do. -/
structure Plain (w : CString) : Prop where
  ne_nil : w ≠ []
  bytes : ∀ c ∈ w, c ∉ exceptions ∧ c ≠ nul ∧ islower c = false

variable {w s : CString} {d : Byte} {files : List (List Byte)} {res : List Pair} {p : Pair} {K : ℕ}

theorem not_mem_exceptions_of_mem_tokens {n : ℕ} (h : w ∈ tokens n s) :
    ∀ c ∈ w, c ∉ exceptions := by
  induction n generalizing s with
  | zero => simp [tokens] at h
  | succ n ih =>
    cases hs : s.dropWhile (· ∈ exceptions) with
    | nil => simp [tokens, strtok, hs] at h
    | cons c t =>
      simp only [tokens, strtok, hs, List.mem_cons] at h
      rcases h with rfl | h
      · intro b hb
        rcases List.mem_cons.mp hb with rfl | hb
        · have hfirst := List.head_dropWhile_not (l := s) (· ∈ exceptions) (by simp [hs])
          simpa [hs] using hfirst
        · simpa using List.mem_takeWhile_imp hb
      · exact ih h

theorem plain_toupper {c : Byte} (hc : c ∉ exceptions) (hnul : c ≠ nul) :
    toupper c ∉ exceptions ∧ toupper c ≠ nul ∧ islower (toupper c) = false := by
  revert c
  decide +kernel

theorem plain_of_mem_fileWords {file : List Byte} (h : w ∈ fileWords file) : Plain w := by
  refine ⟨ne_nil_of_mem_fileWords h, ?_⟩
  obtain ⟨tkn, ht, rfl⟩ := List.mem_map.mp h
  intro b hb
  obtain ⟨c, hc, rfl⟩ := List.mem_map.mp hb
  have hfile : c ∈ file.takeWhile (· ≠ nul) := subset_of_mem_tokens ht hc
  exact plain_toupper (not_mem_exceptions_of_mem_tokens ht c hc)
    (by simpa using List.mem_takeWhile_imp hfile)

theorem Plain.uppercase_eq (h : Plain w) : uppercase w = w := by
  refine (List.map_congr_left fun c hc => ?_).trans (List.map_id w)
  rw [toupper, (h.bytes c hc).2.2]
  rfl

theorem plain_intText (x : ℤ) : Plain (intText x) := by
  have hdigit : ∀ c : Byte, isDigitOf 10 c = true →
      c ∉ exceptions ∧ c ≠ nul ∧ islower c = false := by
    decide +kernel
  have hminus : minus ∉ exceptions ∧ minus ≠ nul ∧ islower minus = false := by decide
  have hnumeral : ∀ c ∈ numeral 10 1 x.natAbs, c ∉ exceptions ∧ c ≠ nul ∧ islower c = false :=
    fun c hc => hdigit c (isDigitOf_of_mem_numeral (by decide) (by decide) hc)
  rw [intText]
  split_ifs
  · refine ⟨List.cons_ne_nil _ _, fun c hc => ?_⟩
    rcases List.mem_cons.mp hc with rfl | hc
    · exact hminus
    · exact hnumeral c hc
  · exact ⟨List.ne_nil_of_length_pos (le_length_numeral 10 1 _), hnumeral⟩

/-! ## Reading it back -/

theorem strtok_word (hne : w ≠ []) (hw : ∀ c ∈ w, c ∉ exceptions) (hd : d ∈ exceptions) :
    strtok (w ++ d :: s) = some (w, s) := by
  obtain ⟨c, t, rfl⟩ := List.exists_cons_of_ne_nil hne
  have hc : c ∉ exceptions := hw c List.mem_cons_self
  have ht : ∀ b ∈ t, decide (b ∉ exceptions) = true := fun b hb =>
    decide_eq_true (hw b (List.mem_cons_of_mem c hb))
  obtain ⟨htake, hdrop⟩ := takeWhile_append_eq (m := d :: s) ht (by simp [hd])
  have hfirst : (c :: (t ++ d :: s)).dropWhile (· ∈ exceptions) = c :: (t ++ d :: s) :=
    List.dropWhile_cons_of_neg (by simpa using hc)
  rw [strtok, List.cons_append, hfirst]
  simp only [htake, hdrop, List.drop_succ_cons, List.drop_zero]

/-- A word in front of a delimiter is the first token of a text. -/
theorem tokens_word (hne : w ≠ []) (hw : ∀ c ∈ w, c ∉ exceptions ∧ c ≠ nul)
    (hd : d ∈ exceptions) :
    tokens ((w ++ d :: s).takeWhile (· ≠ nul)).length ((w ++ d :: s).takeWhile (· ≠ nul)) =
      w :: tokens (s.takeWhile (· ≠ nul)).length (s.takeWhile (· ≠ nul)) := by
  have hdelimiter : ∀ d ∈ exceptions, d ≠ nul := by decide +kernel
  have hword : ∀ c ∈ w, decide (c ≠ nul) = true := fun c hc => decide_eq_true (hw c hc).2
  have htext : (w ++ d :: s).takeWhile (· ≠ nul) = w ++ d :: s.takeWhile (· ≠ nul) := by
    rw [List.takeWhile_append_of_pos hword, List.takeWhile_cons_of_pos]
    exact decide_eq_true (hdelimiter d hd)
  have hstrtok := strtok_word (s := s.takeWhile (· ≠ nul)) hne (fun c hc => (hw c hc).1) hd
  have hlength : (w ++ d :: s.takeWhile (· ≠ nul)).length =
      w.length + (s.takeWhile (· ≠ nul)).length + 1 := by
    rw [List.length_append, List.length_cons]
    omega
  rw [htext, hlength, tokens, hstrtok]
  simp only [tokens_eq (Nat.le_add_left _ w.length) le_rfl]

theorem Plain.token (h : Plain w) : ∀ c ∈ w, c ∉ exceptions ∧ c ≠ nul := fun c hc =>
  ⟨(h.bytes c hc).1, (h.bytes c hc).2.1⟩

theorem fileWords_word (hw : Plain w) (hd : d ∈ exceptions) :
    fileWords (w ++ d :: s) = w :: fileWords s := by
  simp only [fileWords, tokens_word hw.ne_nil hw.token hd, List.map_cons, hw.uppercase_eq]

/-- The words and the numbers are read in turn, and then whatever follows. -/
theorem fileWords_outputText (h : ∀ p ∈ res, Plain p.first) :
    fileWords (outputText res ++ s) =
      res.flatMap (fun p => [p.first, intText p.second]) ++ fileWords s := by
  induction res with
  | nil => rfl
  | cons p res ih =>
    obtain ⟨hp, hres⟩ := List.forall_mem_cons.mp h
    have htext : outputText (p :: res) ++ s =
        p.first ++ byte 32 :: (intText p.second ++ byte 10 :: (outputText res ++ s)) := by
      simp [outputText]
    rw [htext, fileWords_word hp (by decide), fileWords_word (plain_intText p.second) (by decide),
      ih hres]
    rfl

theorem pairsOf_append (h : ∀ p ∈ res, IsInt p.second) (words : List CString) :
    pairsOf (res.flatMap (fun p => [p.first, intText p.second]) ++ words) =
      res ++ pairsOf words := by
  induction res with
  | nil => rfl
  | cons p res ih =>
    obtain ⟨hp, hres⟩ := List.forall_mem_cons.mp h
    have hrest := ih hres
    simp only [List.flatMap_cons, List.cons_append, List.nil_append, pairsOf, hrest,
      atoi_intText hp]

theorem readPairs_outputText (hwords : ∀ p ∈ res, Plain p.first)
    (hcounts : ∀ p ∈ res, IsInt p.second) :
    readPairs (outputText res ++ s) = res ++ readPairs s := by
  rw [readPairs, fileWords_outputText hwords, pairsOf_append hcounts, readPairs]

/-- Every line of the merged ranking is read back. -/
theorem readPairs_merged (hK : 1 ≤ K) (hcount : ∀ w, (files.flatMap fileWords).count w < 2 ^ 31)
    (hrec : res.map Pair.record = top K ((parts files).flatMap (top K))) (s : List Byte) :
    (∀ p ∈ res, Plain p.first) ∧ readPairs (outputText res ++ s) = res ++ readPairs s := by
  have hmem (p : Pair) (hp : p ∈ res) :
      p.first ∈ items ((parts files).flatMap (top K)) ∧
        p.second = tally ((parts files).flatMap (top K)) p.first := by
    have hrecord : p.record ∈ top K ((parts files).flatMap (top K)) :=
      hrec ▸ List.mem_map_of_mem hp
    exact ⟨(mem_top.mp hrecord).1.1, (mem_top.mp hrecord).2⟩
  have hplain : ∀ p ∈ res, Plain p.first := by
    intro p hp
    obtain ⟨x, hx⟩ := mem_items.mp (hmem p hp).1
    obtain ⟨part, hpart, hw⟩ := List.mem_flatMap.mp hx
    obtain ⟨file, -, rfl⟩ := List.mem_map.mp hpart
    exact plain_of_mem_fileWords (mem_items_ones.mp (mem_top.mp hw).1.1)
  refine ⟨hplain, readPairs_outputText hplain fun p hp => ?_⟩
  have hle := (merged_within hK files p.first).1
  have hlt := hcount p.first
  have hnonneg : 0 ≤ p.second := by
    rw [(hmem p hp).2]
    exact tally_nonneg merged_pos
  rw [← (hmem p hp).2] at hle
  exact ⟨by omega, by omega⟩

/-- The reader of the thread version finds in its output the words and the numbers that have been
written, so the pairs are read back. -/
theorem output_reads_back (hK : 1 ≤ K) (hN : files ≠ [])
    (hwords : ∀ file ∈ files, fileWords file ≠ [])
    (hcount : ∀ w, (files.flatMap fileWords).count w < 2 ^ 31) :
    ∃ res, threadtopk K files = some res ∧
      fileWords (outputText res) = res.flatMap (fun p => [p.first, intText p.second]) ∧
      readPairs (outputText res) = res := by
  obtain ⟨res, hres, hrec⟩ := @threadtopk_eq K files (by omega) hN hwords
  rw [Int.toNat_natCast] at hrec
  obtain ⟨hplain, hread⟩ := readPairs_merged hK hcount hrec []
  have htokens := fileWords_outputText (s := []) hplain
  exact ⟨res, hres, by simpa using htokens, by simpa using hread⟩

theorem output_reads_back_second :
    ∃ res, threadtopk (1 : ℕ) second = some res ∧
      fileWords (outputText res) = res.flatMap (fun p => [p.first, intText p.second]) ∧
      readPairs (outputText res) = res :=
  output_reads_back (by decide) (by decide) (by decide +kernel) fun _ =>
    List.count_le_length.trans_lt (by decide +kernel)

/-- What the process version writes more is one line for the empty records, if there is room. -/
theorem proctopk_appends (hK : 1 ≤ K) (hN : files ≠ []) (h : Countable files)
    (hrounds : files.length * K < 2 ^ 31) (hfits : 68 * written K files < 2 ^ 31)
    (junk : ℤ → ℕ → Byte) (hres : threadtopk K files = some res) :
    ∃ room, proctopk K files junk = some (res ++ [⟨[], 0⟩].take room) := by
  obtain ⟨res', hthread, hrec'⟩ := @threadtopk_eq K files (by omega) hN h.words
  obtain rfl := Option.some.inj (hres.symm.trans hthread)
  obtain ⟨resp, hproc, hrec⟩ := @proctopk_eq K files junk hK hN h hrounds hfits
  rw [Int.toNat_natCast] at hrec'
  have hinj := List.map_injective_iff.mpr Pair.record_injective
  rcases Nat.eq_zero_or_pos (files.length * K - written K files) with hn | hn
  · refine ⟨0, hproc.trans (congrArg some (hinj ?_))⟩
    rw [hrec, hn, List.replicate_zero, List.append_nil, List.take_zero, List.append_nil, hrec']
  · refine ⟨K - (items ((parts files).flatMap (top K))).length,
      hproc.trans (congrArg some (hinj ?_))⟩
    rw [hrec, top_append_replicate_eq merged_pos nil_notMem_merged hn.ne', List.map_append, hrec',
      List.map_take]
    rfl

/-- Read back, the outputs of the two programs are the same, whether they write the same or not. -/
theorem outputs_agree (hK : 1 ≤ K) (hN : files ≠ []) (h : Countable files)
    (hrounds : files.length * K < 2 ^ 31) (hfits : 68 * written K files < 2 ^ 31)
    (junk : ℤ → ℕ → Byte) :
    ∃ res res', threadtopk K files = some res ∧ proctopk K files junk = some res' ∧
      readPairs (outputText res) = res ∧ readPairs (outputText res') = res := by
  obtain ⟨res, hres, hrec⟩ := @threadtopk_eq K files (by omega) hN h.words
  rw [Int.toNat_natCast] at hrec
  obtain ⟨room, hproc⟩ := proctopk_appends hK hN h hrounds hfits junk hres
  have hread := fun s => (readPairs_merged hK h.count hrec s).2
  have hnone : ∀ k, readPairs (outputText ([⟨[], 0⟩].take k)) = [] := by
    rintro (_ | k)
    · rfl
    · rw [List.take_of_length_le (by simp)]
      decide +kernel
  refine ⟨res, _, hres, hproc, ?_, ?_⟩
  · simpa using hread []
  · rw [outputText, List.flatMap_append, ← outputText, ← outputText, hread, hnone, List.append_nil]

/-- The line for the record that stays empty is passed over. -/
theorem outputs_agree_alone :
    ∃ res res', threadtopk (2 : ℕ) alone = some res ∧
      proctopk 2 alone (fun _ _ => nul) = some res' ∧
      readPairs (outputText res) = res ∧ readPairs (outputText res') = res :=
  outputs_agree (by decide) (by decide) countable_alone (by decide) (by decide +kernel) _

end Cs342.TopK
