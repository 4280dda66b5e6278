import Cs342.Library.Bytes
import Cs342.Library.ExchangeSort
import Cs342.Library.Ranking

/-!
# Counting and ranking words (list.c, topk.c)

A list under a dummy head, whose word is the empty string and whose `freq` is
`INT_MAX`. The nodes are followed through `next` alone; `prev` is set but never read.
`sort` exchanges word and frequency of two nodes and leaves `len` where it was.

The block that `topKFrequent` returns is taken to be large enough here; how large it is,
and what `sort` does without a word, is the matter of `TopK.Pointers`.
-/

namespace Cs342.TopK

open Library

structure Pair where
  first : CString
  second : ℤ
  deriving DecidableEq, Repr

structure Node where
  word : CString
  freq : ℤ
  len : ℤ
  deriving DecidableEq, Repr

/-- The dummy head and the nodes behind it. -/
structure WordList where
  head : Node
  nodes : List Node
  deriving DecidableEq, Repr

/-- The list both programs start from; `len` of the dummy is never set or read. Nor is its `next`
set, which `malloc` is taken to leave `NULL`. -/
def WordList.dummy : WordList := ⟨⟨[], 2 ^ 31 - 1, 0⟩, []⟩

/-- The loop of `insert` at node `cur`, behind which `next` follow. -/
def insertAfter (cur : Node) (next : List Node) (word : CString) (len freq : ℤ) :
    Node × List Node :=
  match next with
  | n :: rest =>
    if strcmp n.word word ≠ 0 then
      let (n, rest) := insertAfter n rest word len freq
      (cur, n :: rest)
    else (cur, { n with freq := n.freq + freq } :: rest)
  | [] =>
    if strcmp cur.word word = 0 then ({ cur with freq := cur.freq + freq }, [])
    else (cur, [⟨word, freq, len⟩])

def WordList.insert (l : WordList) (word : CString) (len freq : ℤ) : WordList :=
  let (head, nodes) := insertAfter l.head l.nodes word len freq
  ⟨head, nodes⟩

def swap (a b : Node) : Node × Node :=
  ({ a with word := b.word, freq := b.freq }, { b with word := a.word, freq := a.freq })

/-- The inner loop of `sort`: `cur` against every later node. -/
def sortPass (cur : Node) : List Node → Node × List Node
  | [] => (cur, [])
  | idx :: rest =>
    let (cur, idx) :=
      if cur.freq < idx.freq then swap cur idx
      else if cur.freq = idx.freq ∧ strcmp cur.word idx.word > 0 then swap cur idx
      else (cur, idx)
    let (cur, rest) := sortPass cur rest
    (cur, idx :: rest)

/-- The outer loop of `sort`, for a list of `n` nodes. -/
def sortFrom : ℕ → List Node → List Node
  | n + 1, cur :: rest =>
    let (cur, rest) := sortPass cur rest
    cur :: sortFrom n rest
  | _, nodes => nodes

/-- `sort` follows `head->next` at once, which is null in a list without nodes. -/
def WordList.sort (l : WordList) : Option WordList :=
  match l.nodes with
  | [] => none
  | nodes => some { l with nodes := sortFrom nodes.length nodes }

/-- The pairs are written to a block taken to be large enough for them. -/
def WordList.topKFrequent (words : WordList) (k : ℤ) : Option (List Pair) :=
  words.sort.map fun words => (words.nodes.take k.toNat).map fun cur => ⟨cur.word, cur.freq⟩

/-! ## What a list counts -/

def Node.record (n : Node) : CString × ℤ := (n.word, n.freq)

def Pair.record (p : Pair) : CString × ℤ := (p.first, p.second)

/-- The list has one node for each word of the records, with the word's tally. -/
structure WordList.Counts (l : WordList) (rs : Records CString) : Prop where
  head : l.head.word = []
  nodup : (l.nodes.map Node.word).Nodup
  mem : ∀ w, w ∈ l.nodes.map Node.word ↔ w ∈ items rs
  tally : ∀ w, tally (l.nodes.map Node.record) w = tally rs w

/-! ## insert -/

/-- What `insert` does to the nodes, unless the word is empty and there are none. -/
def bump (word : CString) (len freq : ℤ) : List Node → List Node
  | [] => [⟨word, freq, len⟩]
  | n :: rest =>
    if n.word = word then { n with freq := n.freq + freq } :: rest
    else n :: bump word len freq rest

variable {word w : CString} {len freq : ℤ} {nodes : List Node} {l : WordList}
  {rs : Records CString}

theorem insertAfter_eq {cur : Node} (h : cur.word ≠ word ∨ nodes ≠ []) :
    insertAfter cur nodes word len freq = (cur, bump word len freq nodes) := by
  induction nodes generalizing cur with
  | nil =>
    have hcur : cur.word ≠ word := by simpa using h
    simp [insertAfter, bump, strcmp_eq_zero_iff, hcur]
  | cons n rest ih =>
    by_cases hn : n.word = word
    · simp [insertAfter, bump, strcmp_eq_zero_iff, hn]
    · simp [insertAfter, bump, strcmp_eq_zero_iff, hn, ih (.inl hn)]

theorem mem_bump :
    w ∈ (bump word len freq nodes).map Node.word ↔ w ∈ nodes.map Node.word ∨ w = word := by
  induction nodes with
  | nil => simp [bump]
  | cons n rest ih =>
    by_cases hn : n.word = word
    · simp only [bump, hn, if_true, List.map_cons, List.mem_cons]
      tauto
    · rw [bump, if_neg hn, List.map_cons, List.mem_cons, ih, List.map_cons, List.mem_cons, or_assoc]

theorem nodup_bump (h : (nodes.map Node.word).Nodup) :
    ((bump word len freq nodes).map Node.word).Nodup := by
  induction nodes with
  | nil => simp [bump]
  | cons n rest ih =>
    obtain ⟨hn, hrest⟩ := List.nodup_cons.mp h
    by_cases hw : n.word = word
    · simpa [bump, hw] using h
    · rw [bump, if_neg hw, List.map_cons]
      exact List.nodup_cons.mpr ⟨fun hm => (mem_bump.mp hm).elim hn hw, ih hrest⟩

theorem tally_bump : tally ((bump word len freq nodes).map Node.record) w =
    tally (nodes.map Node.record) w + tally [(word, freq)] w := by
  induction nodes with
  | nil => simp [bump, Node.record]
  | cons n rest ih =>
    by_cases hn : n.word = word
    · subst hn
      simp only [bump, if_true, List.map_cons, Node.record, tally_cons, tally_nil]
      split_ifs <;> ring
    · simp only [bump, hn, if_false, List.map_cons, Node.record, tally_cons n.word, ih, add_assoc]

theorem counts_dummy : WordList.dummy.Counts [] where
  head := rfl
  nodup := .nil
  mem := by simp [WordList.dummy, items]
  tally _ := rfl

/-- The list is empty only as long as nothing has been counted. -/
theorem WordList.Counts.nodes_ne_nil (h : l.Counts rs) (hrs : rs ≠ []) : l.nodes ≠ [] := by
  obtain ⟨r, rs, rfl⟩ := List.exists_cons_of_ne_nil hrs
  have hmem := (h.mem r.1).mpr (mem_items.mpr ⟨r.2, by simp⟩)
  rintro hnil
  simp [hnil] at hmem

theorem WordList.Counts.insert (h : l.Counts rs) (hw : rs ≠ [] ∨ word ≠ []) (len freq : ℤ) :
    (l.insert word len freq).Counts (rs ++ [(word, freq)]) := by
  have hcur : l.head.word ≠ word ∨ l.nodes ≠ [] := by
    rcases hw with hrs | hw
    · exact .inr (h.nodes_ne_nil hrs)
    · exact .inl (h.head ▸ hw.symm)
  rw [WordList.insert, insertAfter_eq hcur]
  refine ⟨h.head, nodup_bump h.nodup, fun w => ?_, fun w => ?_⟩
  · rw [mem_bump, h.mem, items_append]
    simp [items]
  · rw [tally_bump, h.tally, tally_append]

/-- Insert pairs one after another, each with the length of its word. -/
def WordList.insertAll (l : WordList) (ps : List Pair) : WordList :=
  ps.foldl (fun l p => l.insert p.first p.first.length p.second) l

theorem WordList.Counts.insertAll {ps : List Pair} (h : l.Counts rs)
    (hw : rs ≠ [] ∨ ∀ p ∈ ps.head?, p.first ≠ []) :
    (l.insertAll ps).Counts (rs ++ ps.map Pair.record) := by
  induction ps generalizing l rs with
  | nil => simpa [WordList.insertAll] using h
  | cons p ps ih =>
    have hp := h.insert (hw.imp_right fun hw => hw p rfl) p.first.length p.second
    have hps := ih hp (.inl (by simp))
    rw [List.append_assoc] at hps
    exact hps

/-! ## sort -/

/-- The order `sort` sorts by: it exchanges `cur` and `idx` when `idx` is below `cur`. -/
def Below (r s : CString × ℤ) : Prop := s.2 < r.2 ∨ s.2 = r.2 ∧ r.1 < s.1

instance : DecidableRel Below := fun _ _ => inferInstanceAs (Decidable (_ ∨ _))

@[simp] theorem swap_record (a b : Node) :
    (swap a b).1.record = b.record ∧ (swap a b).2.record = a.record := ⟨rfl, rfl⟩

theorem sortPass_cons (cur idx : Node) (rest : List Node) :
    sortPass cur (idx :: rest) =
      let (cur, idx) := if Below idx.record cur.record then swap cur idx else (cur, idx)
      ((sortPass cur rest).1, idx :: (sortPass cur rest).2) := by
  have hbelow : Below idx.record cur.record ↔
      cur.freq < idx.freq ∨ cur.freq = idx.freq ∧ strcmp cur.word idx.word > 0 := by
    simp [Below, Node.record, strcmp_pos_iff]
  by_cases h : cur.freq < idx.freq
  · simp [sortPass, hbelow, h]
  · by_cases h' : cur.freq = idx.freq ∧ strcmp cur.word idx.word > 0
    · simp [sortPass, hbelow, h']
    · simp [sortPass, hbelow, h, h']

theorem sortPass_record {cur : Node} :
    (sortPass cur nodes).1.record = (exchange Below cur.record (nodes.map Node.record)).1 ∧
      (sortPass cur nodes).2.map Node.record =
        (exchange Below cur.record (nodes.map Node.record)).2 := by
  induction nodes generalizing cur with
  | nil => exact ⟨rfl, rfl⟩
  | cons idx rest ih =>
    rw [sortPass_cons, List.map_cons, exchange]
    split_ifs with h
    · simpa using @ih (swap cur idx).1
    · simpa using @ih cur

theorem sortFrom_record {n : ℕ} :
    (sortFrom n nodes).map Node.record = exchangeSort Below n (nodes.map Node.record) := by
  induction n generalizing nodes with
  | zero => rfl
  | succ n ih =>
    cases nodes with
    | nil => rfl
    | cons cur rest =>
      obtain ⟨h1, h2⟩ := @sortPass_record rest cur
      rw [sortFrom, List.map_cons, List.map_cons, exchangeSort, ← h1, ← h2, ih]

theorem WordList.Counts.sortFrom (h : l.Counts rs) :
    (sortFrom l.nodes.length l.nodes).map Node.record =
      (ranking rs).map fun w => (w, Library.tally rs w) := by
  have hcounts : Library.tally (l.nodes.map Node.record) = Library.tally rs := funext h.tally
  have hwords : (l.nodes.map Node.record).map Prod.fst = l.nodes.map Node.word := by
    simp [Function.comp_def, Node.record]
  have hsort : exchangeSort Below l.nodes.length (l.nodes.map Node.record) =
      (exchangeSort (Before (Library.tally rs)) l.nodes.length (l.nodes.map Node.word)).map
        fun w => (w, Library.tally rs w) := by
    have hnd : ((l.nodes.map Node.record).map Prod.fst).Nodup := hwords ▸ h.nodup
    rw [records_eq hnd, hwords, hcounts]
    exact exchangeSort_map fun v w => by simp [Below, Before, eq_comm]
  have hperm : (exchangeSort (Before (Library.tally rs)) l.nodes.length
      (l.nodes.map Node.word)).Perm (l.nodes.map Node.word) := exchangeSort_perm
  have hsorted := exchangeSort_sorted (fun v w (h : Before (Library.tally rs) v w) => h.asymm)
    (fun _ _ _ => not_before_trans) (l := l.nodes.map Node.word) (n := l.nodes.length) (by simp)
  rw [sortFrom_record, hsort,
    eq_ranking (hperm.nodup_iff.mpr h.nodup) (fun w => hperm.mem_iff.trans (h.mem w)) hsorted]

theorem WordList.sort_eq (hne : l.nodes ≠ []) :
    l.sort = some { l with nodes := TopK.sortFrom l.nodes.length l.nodes } := by
  obtain ⟨n, rest, hnodes⟩ := List.exists_cons_of_ne_nil hne
  simp [WordList.sort, hnodes]

/-- On a list that counts words `topKFrequent` gives the first `k` of their ranking. -/
theorem WordList.Counts.topKFrequent (h : l.Counts rs) (hrs : rs ≠ []) (k : ℤ) :
    ∃ res, l.topKFrequent k = some res ∧ res.map Pair.record = top k.toNat rs := by
  refine ⟨_, by rw [WordList.topKFrequent, WordList.sort_eq (h.nodes_ne_nil hrs)]; rfl, ?_⟩
  have hrecord : (Pair.record ∘ fun cur : Node => (⟨cur.word, cur.freq⟩ : Pair)) = Node.record :=
    rfl
  rw [List.map_map, hrecord, List.map_take, h.sortFrom, ← List.map_take]
  rfl

/-- Insert pairs into an empty list and rank the words: what both programs do twice. -/
theorem topKFrequent_insertAll {ps : List Pair} (hps : ps ≠ [])
    (hw : ∀ p ∈ ps.head?, p.first ≠ []) (k : ℤ) :
    ∃ res, (WordList.dummy.insertAll ps).topKFrequent k = some res ∧
      res.map Pair.record = top k.toNat (ps.map Pair.record) :=
  (counts_dummy.insertAll (.inr hw)).topKFrequent (by simpa using hps) k

end Cs342.TopK
