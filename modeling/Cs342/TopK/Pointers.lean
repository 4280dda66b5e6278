import Cs342.Library.ChainSort
import Cs342.TopK.WordList

/-!
# Ranking on pointers (list.c, topk.c)

`sort` and `topKFrequent` on the nodes themselves, and on the block for the pairs. The outer
loop of `sort` looks one node ahead and so follows a null pointer in a list without words.
The block has room for `k` pointers, but a pair takes twice as much.

Where neither happens the pairs are those of the list. A function answers `none` where it
would follow a null pointer or write outside of the block.
-/

namespace Cs342.TopK

open Library

/-- The body of the loops of `sort`. -/
def exchangeNodes (cur idx : Node) : Node × Node :=
  if cur.freq < idx.freq then swap cur idx
  else if cur.freq = idx.freq ∧ strcmp cur.word idx.word > 0 then swap cur idx
  else (cur, idx)

/-- The nodes, and an address above all of theirs, which bounds the rounds of a loop. -/
structure NodeHeap where
  cells : Heap Node
  brk : ℕ

def sizeofPointer : ℤ := 8

def sizeofPair : ℤ := 16

namespace NodeHeap

def sort (m : NodeHeap) (head : ℕ) : Option (Heap Node) := do
  let c ← m.cells head
  Heap.sortLoop exchangeNodes m.brk c.next m.cells

/-- The loop of `topKFrequent` at `i`, of which at most so many rounds are left. -/
def copyPairs (cells : Heap Node) (bytes : ℤ) : ℕ → ℤ → Option ℕ → Option (List Pair)
  | 0, _, _ => some []
  | _ + 1, _, none => some []
  | n + 1, i, some cur => do
    let c ← cells cur
    if sizeofPair * (i + 1) ≤ bytes then
      (copyPairs cells bytes n (i + 1) c.next).map (⟨c.data.word, c.data.freq⟩ :: ·)
    else none

/-- The pairs and `returnSize`; the result is null if `words` is. -/
def topKFrequent (m : NodeHeap) (words : Option ℕ) (k : ℤ) : Option (Option (List Pair × ℤ)) :=
  match words with
  | none => some none
  | some words => do
    let cells ← m.sort words
    let c ← cells words
    let res ← copyPairs cells (sizeofPointer * k) k.toNat 0 c.next
    some (some (res, res.length))

/-- The dummy head lies at `head`, the nodes behind it follow along `next`. -/
def Lays (m : NodeHeap) (head : ℕ) (l : WordList) : Prop :=
  ∃ p ns, Chain m.cells p ((head, l.head) :: ns) none ∧ (addrs ((head, l.head) :: ns)).Nodup ∧
    (∀ a ∈ addrs ((head, l.head) :: ns), a < m.brk) ∧ values ns = l.nodes

end NodeHeap

/-! ## sort -/

theorem sortPass_eq (cur : Node) (nodes : List Node) :
    sortPass cur nodes = pass exchangeNodes cur nodes := by
  induction nodes generalizing cur with
  | nil => rfl
  | cons idx rest ih =>
    simp only [sortPass, ih]
    rfl

theorem sortFrom_eq (n : ℕ) (nodes : List Node) :
    sortFrom n nodes = passes exchangeNodes n nodes := by
  induction n generalizing nodes with
  | zero => rfl
  | succ n ih =>
    cases nodes with
    | nil => rfl
    | cons cur rest =>
      simp only [sortFrom, sortPass_eq, ih]
      rfl

namespace NodeHeap

variable {m : NodeHeap} {head : ℕ} {l : WordList} {k : ℤ}

/-- On the nodes of a list with words `sort` does what it does to the list. -/
theorem Lays.sort (h : m.Lays head l) (hne : l.nodes ≠ []) :
    ∃ cells, m.sort head = some cells ∧
      Lays ⟨cells, m.brk⟩ head { l with nodes := sortFrom l.nodes.length l.nodes } := by
  obtain ⟨p, ns, hc, hnd, hlt, hv⟩ := h
  have hdummy := hc.1
  have hlength := length_le_of_lt hnd hlt
  cases ns with
  | nil => exact absurd hv.symm hne
  | cons c rest =>
    obtain ⟨a, x⟩ := c
    have hc : Chain m.cells p ([(head, l.head)] ++ (a, x) :: rest) none := hc
    obtain ⟨g, hg, hcg⟩ := hc.sortLoop (f := exchangeNodes) (k := m.brk) hnd
      (by simp at hlength; omega)
    have hsorted : passes exchangeNodes (rest.length + 1) (x :: values rest) =
        sortFrom l.nodes.length l.nodes := by
      rw [sortFrom_eq, ← hv]
      simp
    rw [hsorted] at hcg
    have hsize : (sortFrom l.nodes.length l.nodes).length = (a :: addrs rest).length := by
      rw [sortFrom_eq, length_passes, ← hv]
      simp
    refine ⟨g, by simpa [NodeHeap.sort, hdummy] using hg, p, _, hcg, ?_, ?_, values_zip hsize⟩
    · simpa [addrs_zip hsize] using hnd
    · simpa [addrs_zip hsize] using hlt

/-- The pairs are written to the block exactly when there is room for the last one. -/
theorem copyPairs_eq {cells : Heap Node} {p : Option ℕ} {ns : List (ℕ × Node)} {bytes i : ℤ}
    {n : ℕ} (hc : Chain cells p ns none) :
    copyPairs cells bytes n i (firstAddr none ns) =
      if min n ns.length = 0 ∨ sizeofPair * (i + min n ns.length) ≤ bytes then
        some (((values ns).take n).map fun cur => ⟨cur.word, cur.freq⟩)
      else none := by
  induction ns generalizing n i p with
  | nil => cases n <;> simp [copyPairs]
  | cons c ns ih =>
    cases n with
    | zero => simp [copyPairs]
    | succ n =>
      have hrest := ih (n := n) (i := i + 1) hc.2
      have hcell := hc.1
      have hmin : min (n + 1) (c :: ns).length = min n ns.length + 1 := by
        simp only [List.length_cons, Nat.add_min_add_right]
      rw [hmin]
      generalize min n ns.length = written at hrest
      by_cases hfits : sizeofPair * (i + 1) ≤ bytes
      · -- the last pair lies behind this one, or is this one
        have hlast : (written = 0 ∨ sizeofPair * (i + 1 + written) ≤ bytes) ↔
            (written + 1 = 0 ∨ sizeofPair * (i + (written + 1 : ℕ)) ≤ bytes) := by
          unfold sizeofPair at hfits ⊢
          omega
        rw [← if_congr hlast rfl rfl]
        simp only [copyPairs, firstAddr_cons, hcell, Option.bind_eq_bind, Option.bind_some,
          if_pos hfits, hrest]
        split_ifs <;> simp
      · have hlast : ¬ (written + 1 = 0 ∨ sizeofPair * (i + (written + 1 : ℕ)) ≤ bytes) := by
          unfold sizeofPair at hfits ⊢
          omega
        rw [if_neg hlast]
        simp [copyPairs, hcell, hfits]

/-- Where there is room, `topKFrequent` returns the pairs of the list. -/
theorem Lays.topKFrequent (h : m.Lays head l) (hk : 0 ≤ k) :
    m.topKFrequent (some head) k =
      if 2 * min k l.nodes.length ≤ k then
        (l.topKFrequent k).map fun res => some (res, min k l.nodes.length)
      else none := by
  by_cases hne : l.nodes = []
  · obtain ⟨p, ns, hc, -, -, hv⟩ := h
    obtain rfl := List.map_eq_nil_iff.mp (hv.trans hne)
    have hsort : m.sort head = none := by
      have hdummy := hc.1
      cases hb : m.brk <;> simp [NodeHeap.sort, hdummy, hb, Heap.sortLoop]
    simp [NodeHeap.topKFrequent, hsort, WordList.topKFrequent, WordList.sort, hne]
  · obtain ⟨cells, hsort, p, ns, hc, -, -, hv⟩ := h.sort hne
    have hv : values ns = sortFrom l.nodes.length l.nodes := hv
    have hdummy : cells head = some ⟨l.head, firstAddr none ns, p⟩ := hc.1
    have hcopy : copyPairs cells (sizeofPointer * k) k.toNat 0 (firstAddr none ns) = _ :=
      copyPairs_eq hc.2
    have hlength : ns.length = l.nodes.length := by
      have := congrArg List.length hv
      rw [sortFrom_eq, length_passes] at this
      simpa using this
    have hwritten : ((min k.toNat ns.length : ℕ) : ℤ) = min k l.nodes.length := by
      rw [hlength]
      omega
    have hroom : min k.toNat ns.length = 0 ∨
        sizeofPair * (0 + (min k.toNat ns.length : ℕ)) ≤ sizeofPointer * k ↔
        2 * min k l.nodes.length ≤ k := by
      unfold sizeofPair sizeofPointer
      omega
    rw [if_congr hroom rfl rfl, hv] at hcopy
    simp only [NodeHeap.topKFrequent, hsort, hdummy, Option.bind_eq_bind, Option.bind_some, hcopy,
      WordList.topKFrequent, WordList.sort_eq hne]
    split_ifs
    · simp only [Option.bind_some, Option.map_some, ← hwritten, ← hv]
      simp
    · rfl

/-- Neither a null pointer is followed nor anything written outside of the block, and as many
pairs are returned as there are words, or `k` if that is less, exactly when there is a word
and `k` is zero or at least twice the number of words. -/
theorem topKFrequent_safe_iff (h : m.Lays head l) (hk : 0 ≤ k) :
    (∃ res, m.topKFrequent (some head) k = some (some (res, min k l.nodes.length))) ↔
      l.nodes ≠ [] ∧ (k = 0 ∨ 2 * l.nodes.length ≤ k) := by
  have hroom : 2 * min k l.nodes.length ≤ k ↔ k = 0 ∨ 2 * l.nodes.length ≤ k := by omega
  rw [h.topKFrequent hk, ← hroom]
  by_cases hne : l.nodes = []
  · simp [WordList.topKFrequent, WordList.sort, hne]
  · simp [WordList.topKFrequent, WordList.sort_eq hne, hne]

/-- The word A under the dummy head. -/
def oneWord : NodeHeap where
  cells a :=
    if a = 0 then some ⟨WordList.dummy.head, some 1, none⟩
    else if a = 1 then some ⟨⟨[byte 65], 1, 1⟩, none, some 0⟩
    else none
  brk := 2

theorem lays_oneWord : oneWord.Lays 0 (WordList.dummy.insert [byte 65] 1 1) :=
  ⟨none, [(1, ⟨[byte 65], 1, 1⟩)], ⟨rfl, rfl, trivial⟩, by decide, by decide, rfl⟩

theorem topKFrequent_safe_iff_oneWord :
    (∃ res, oneWord.topKFrequent (some 0) 2 = some (some (res, 1))) ↔
      (WordList.dummy.insert [byte 65] 1 1).nodes ≠ [] ∧ ((2 : ℤ) = 0 ∨ (2 : ℤ) * 1 ≤ 2) :=
  topKFrequent_safe_iff lays_oneWord (by decide)

/-- The dummy head alone, as after an empty file. -/
def noWords : NodeHeap where
  cells a := if a = 0 then some ⟨WordList.dummy.head, none, none⟩ else none
  brk := 1

/-- Without words a null pointer is followed, and the block for one pair is too small for it. -/
theorem topKFrequent_unsafe :
    noWords.Lays 0 .dummy ∧ noWords.topKFrequent (some 0) 0 = none ∧
      oneWord.Lays 0 (WordList.dummy.insert [byte 65] 1 1) ∧
      oneWord.topKFrequent (some 0) 1 = none := by
  refine ⟨⟨none, [], ⟨rfl, trivial⟩, by decide, by decide, rfl⟩, ?_, lays_oneWord, ?_⟩ <;>
    decide +kernel

end NodeHeap

end Cs342.TopK
