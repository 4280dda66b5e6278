import Mathlib.Algebra.BigOperators.Group.Finset.Piecewise
import Cs342.Library.Ledger
import Cs342.TopK.WordList

/-!
# Passing results through the shared segment (proctopk.c)

A child reads the shared offset once, to find where to write, and then advances it
after every word and every frequency it has copied. One step is one of these
accesses. The segment is the `int` at its start and the bytes behind it; address 0
is the first byte behind the `int` and the byte that the source skips.
-/

namespace Cs342.TopK

open Library

structure Segment where
  offset : ℤ
  bytes : Mem

/-- The 64 bytes that `memcpy` takes from a word's block; the block ends with the word's zero,
and what lies behind it is copied too. -/
def copied (word : CString) (junk : ℕ → Byte) : List Byte :=
  (word ++ nul :: (List.range 64).map junk).take 64

/-- A child in front of its read of the offset, at the top of its loop over the results
with its own pointer and the results left, between two accesses for a result, or done. -/
inductive Child where
  | start
  | atRecord (cur : ℤ) (rest : List Pair)
  | wordCopied (cur : ℤ) (r : Pair) (rest : List Pair)
  | wordCounted (cur : ℤ) (r : Pair) (rest : List Pair)
  | freqCopied (cur : ℤ) (r : Pair) (rest : List Pair)
  | exited
  deriving DecidableEq, Repr

/-- The next access of a child with these results. -/
def Child.step (res : List Pair) (junk : ℕ → Byte) (seg : Segment) :
    Child → Option (Segment × Child)
  | .start => some (seg, .atRecord seg.offset res)
  | .atRecord _ [] => some (seg, .exited)
  | .atRecord cur (r :: rest) =>
    some ({ seg with bytes := seg.bytes.write cur (copied r.first junk) }, .wordCopied cur r rest)
  | .wordCopied cur r rest =>
    some ({ seg with offset := toInt (seg.offset + 64) }, .wordCounted cur r rest)
  | .wordCounted cur r rest =>
    some ({ seg with bytes := seg.bytes.write (cur + 64) (intBytes r.second) },
      .freqCopied cur r rest)
  | .freqCopied cur _ rest =>
    some ({ seg with offset := toInt (seg.offset + 4) }, .atRecord (cur + 68) rest)
  | .exited => none

/-- The bytes the parent allocates; `K * N` is an `int`. -/
def shmemSize (N K : ℕ) : ℤ := toInt (K * N) * (64 + 4) * 64 + N * 4

/-- The rounds of the parent's loop, whose bound `N * K` is an `int`. -/
def rounds (N K : ℕ) : ℕ := (toInt (N * K)).toNat

/-- The parent's loop over `n` records from `curmem` on. -/
def Segment.decode (seg : Segment) (size : ℤ) : ℕ → ℤ → Option (List Pair)
  | 0, _ => some []
  | n + 1, curmem => do
    let word ← seg.bytes.cstr (size - 5 - curmem).toNat curmem
    let rest ← seg.decode size n (curmem + 68)
    some (⟨word, seg.bytes.int (curmem + 64)⟩ :: rest)

/-- What the children found: at most `K` pairs each, of a word and an `int`. -/
structure Results where
  N : ℕ
  K : ℕ
  res : Fin N → List Pair
  size_le : ∀ c, (res c).length ≤ K
  word_length : ∀ c, ∀ r ∈ res c, r.first.length < 64
  word_nul : ∀ c, ∀ r ∈ res c, nul ∉ r.first
  freq_int : ∀ c, ∀ r ∈ res c, -2 ^ 31 ≤ r.second ∧ r.second < 2 ^ 31

structure Shared (N : ℕ) where
  seg : Segment
  children : Fin N → Child

namespace Results

/-- One step of child `c`; `junk` is what lies behind the word it copies. -/
def act (r : Results) (s : Shared r.N) : Fin r.N × (ℕ → Byte) → Option (Shared r.N)
  | (c, junk) => (Child.step (r.res c) junk s.seg (s.children c)).map fun (seg, child) =>
    ⟨seg, Function.update s.children c child⟩

/-- The segment is zero and no child has begun. -/
def init (r : Results) (s : Shared r.N) : Prop :=
  s.seg = ⟨0, fun _ => nul⟩ ∧ ∀ c, s.children c = .start

def system (r : Results) : System (Shared r.N) := System.ofAct r.init r.act

/-- All pairs of all children. -/
def all (r : Results) : Multiset Pair := ∑ c, (r.res c : Multiset Pair)

/-- What the parent reads when all children have exited. -/
def decoded (r : Results) (s : Shared r.N) : Option (List Pair) :=
  s.seg.decode (shmemSize r.N r.K) (rounds r.N r.K) 0

/-- Every pair of every child is decoded once; the other records are empty. -/
def NothingLost (r : Results) (s : Shared r.N) : Prop :=
  ∃ recs, r.decoded s = some recs ∧
    (recs : Multiset Pair) = r.all + Multiset.replicate (r.N * r.K - r.all.card) ⟨[], 0⟩

end Results

/-- Between its read of the offset and its last advance of it. -/
def Child.Writing : Child → Prop
  | .start | .atRecord _ [] | .exited => False
  | .atRecord _ (_ :: _) | .wordCopied .. | .wordCounted .. | .freqCopied .. => True

instance : DecidablePred Child.Writing
  | .start | .atRecord _ [] | .exited => .isFalse id
  | .atRecord _ (_ :: _) | .wordCopied .. | .wordCounted .. | .freqCopied .. => .isTrue trivial

namespace Results

/-- The step does not read the offset for results to write while another child is writing. -/
def Undisturbed (r : Results) (s : Shared r.N) (a : Fin r.N × (ℕ → Byte)) : Prop :=
  s.children a.1 = .start → r.res a.1 ≠ [] → ∀ d, ¬ (s.children d).Writing

instance (r : Results) (s : Shared r.N) (a : Fin r.N × (ℕ → Byte)) :
    Decidable (r.Undisturbed s a) :=
  inferInstanceAs (Decidable (_ → _ → ∀ _, _))

/-- The runs whose reads of the offset are all undisturbed. -/
def careful (r : Results) : System (Shared r.N) :=
  System.ofAct r.init (System.guarded r.act r.Undisturbed)

end Results

/-! ## Records in memory -/

theorem copied_length (word : CString) (junk : ℕ → Byte) : (copied word junk).length = 64 := by
  simp [copied]

theorem copied_eq {word : CString} (h : word.length < 64) (junk : ℕ → Byte) :
    ∃ bs, copied word junk = word ++ nul :: bs := by
  obtain ⟨n, hn⟩ := Nat.exists_eq_add_of_lt h
  refine ⟨((List.range 64).map junk).take n, ?_⟩
  rw [copied, hn, List.take_append, List.take_of_length_le (by omega)]
  simp [show word.length + n + 1 - word.length = n + 1 by omega]

def StoresWord (m : Mem) (a : ℤ) (word : CString) : Prop := ∃ junk, m.Stores a (copied word junk)

def StoresRecord (m : Mem) (a : ℤ) (r : Pair) : Prop :=
  StoresWord m a r.first ∧ m.Stores (a + 64) (intBytes r.second)

/-- The records are stored one behind the other. -/
def StoresAll (m : Mem) (a : ℤ) : List Pair → Prop
  | [] => True
  | r :: rs => StoresRecord m a r ∧ StoresAll m (a + 68) rs

variable {m m' : Mem} {a : ℤ} {r : Pair} {rs : List Pair}

theorem StoresWord.congr {word : CString} (h : StoresWord m a word)
    (heq : ∀ b < a + 64, m' b = m b) : StoresWord m' a word := by
  obtain ⟨junk, h⟩ := h
  refine ⟨junk, h.congr fun b _ hb => heq b ?_⟩
  rw [copied_length] at hb
  exact_mod_cast hb

theorem StoresRecord.congr (h : StoresRecord m a r) (heq : ∀ b < a + 68, m' b = m b) :
    StoresRecord m' a r := by
  refine ⟨h.1.congr fun b hb => heq b (by omega), h.2.congr fun b _ hb => heq b ?_⟩
  simp only [intBytes, List.length_cons, List.length_nil] at hb
  omega

theorem StoresAll.congr (h : StoresAll m a rs) (heq : ∀ b < a + 68 * rs.length, m' b = m b) :
    StoresAll m' a rs := by
  induction rs generalizing a with
  | nil => trivial
  | cons r rs ih =>
    simp only [List.length_cons, Nat.cast_add, Nat.cast_one] at heq
    exact ⟨h.1.congr fun b hb => heq b (by omega), ih h.2 fun b hb => heq b (by omega)⟩

theorem StoresAll.concat (h : StoresAll m a rs) (hr : StoresRecord m (a + 68 * rs.length) r) :
    StoresAll m a (rs ++ [r]) := by
  induction rs generalizing a with
  | nil => exact ⟨by simpa using hr, trivial⟩
  | cons r' rs ih =>
    refine ⟨h.1, ih h.2 ?_⟩
    rw [show a + 68 + 68 * (rs.length : ℤ) = a + 68 * ((r' :: rs).length : ℕ) by simp; ring]
    exact hr

theorem shmemSize_eq {N K : ℕ} (h : N * K < 2 ^ 31) :
    shmemSize N K = 4352 * ((N * K : ℕ) : ℤ) + 4 * N := by
  have hint : toInt (K * N) = ((N * K : ℕ) : ℤ) := by
    rw [mul_comm, ← Nat.cast_mul, toInt_eq (by omega) (by omega)]
  rw [shmemSize, hint]
  ring

theorem rounds_eq {N K : ℕ} (h : N * K < 2 ^ 31) : rounds N K = N * K := by
  rw [rounds, ← Nat.cast_mul, toInt_eq (by omega) (by omega), Int.toNat_natCast]

/-- The pair of a record as the parent can read it. -/
def Pair.Readable (r : Pair) : Prop :=
  r.first.length < 64 ∧ nul ∉ r.first ∧ -2 ^ 31 ≤ r.second ∧ r.second < 2 ^ 31

theorem decode_zero {seg : Segment} {size : ℤ} {n : ℕ} {curmem : ℤ}
    (hzero : ∀ b, curmem ≤ b → seg.bytes b = nul) (hsize : 68 * n ≤ (size - 5 - curmem).toNat) :
    seg.decode size n curmem = some (List.replicate n ⟨[], 0⟩) := by
  induction n generalizing curmem with
  | zero => rfl
  | succ n ih =>
    have hrest := @ih (curmem + 68) (fun b hb => hzero b (by omega)) (by omega)
    have hword : seg.bytes.cstr (size - 5 - curmem).toNat curmem = some [] := by
      obtain ⟨l, hl⟩ := Nat.exists_eq_succ_of_ne_zero
        (show (size - 5 - curmem).toNat ≠ 0 by omega)
      simp [hl, Mem.cstr, hzero curmem le_rfl]
    have hint : seg.bytes.int (curmem + 64) = 0 := by
      simp [Mem.int, hzero (curmem + 64) (by omega), hzero (curmem + 64 + 1) (by omega),
        hzero (curmem + 64 + 2) (by omega), hzero (curmem + 64 + 3) (by omega), toInt]
    simp [Segment.decode, hword, hrest, hint, List.replicate_succ]

theorem decode_of_storesAll {seg : Segment} {size : ℤ} {n : ℕ} {curmem : ℤ}
    (h : StoresAll seg.bytes curmem rs) (hrs : ∀ r ∈ rs, r.Readable)
    (hzero : ∀ b, curmem + 68 * rs.length ≤ b → seg.bytes b = nul) (hn : rs.length ≤ n)
    (hsize : 68 * n ≤ (size - 5 - curmem).toNat) :
    seg.decode size n curmem = some (rs ++ List.replicate (n - rs.length) ⟨[], 0⟩) := by
  induction rs generalizing n curmem with
  | nil => exact decode_zero (by simpa using hzero) hsize
  | cons r rs ih =>
    obtain ⟨n, rfl⟩ := Nat.exists_eq_succ_of_ne_zero (Nat.ne_of_gt (Nat.zero_lt_of_lt hn))
    simp only [List.length_cons, Nat.cast_add, Nat.cast_one] at hzero hn
    obtain ⟨⟨⟨junk, hw⟩, hi⟩, hrest⟩ := h
    obtain ⟨hlen, hnul, hlo, hhi⟩ := hrs r (by simp)
    obtain ⟨bs, hbs⟩ := copied_eq hlen junk
    rw [hbs] at hw
    have hword : seg.bytes.cstr (size - 5 - curmem).toNat curmem = some r.first :=
      hw.cstr hnul (by omega)
    have hdec := ih hrest (fun r hr => hrs r (List.mem_cons_of_mem _ hr))
      (fun b hb => hzero b (by omega)) (n := n) (by omega) (by omega)
    simp [Segment.decode, hword, hdec, hi.int hlo hhi]

/-! ## One writer at a time -/

namespace Child

/-- The results a child has not completely written. -/
def left (res : List Pair) : Child → List Pair
  | .start => res
  | .atRecord _ rest => rest
  | .wordCopied _ r rest | .wordCounted _ r rest | .freqCopied _ r rest => r :: rest
  | .exited => []

end Child

/-- Nothing is written from `pos` on, and the offset says so. -/
def Segment.Clean (seg : Segment) (pos : ℤ) : Prop :=
  seg.offset = pos ∧ ∀ b, pos ≤ b → seg.bytes b = nul

/-- What a writing child has written of its record at `pos`. -/
def Child.Wrote (seg : Segment) (pos : ℤ) : Child → Prop
  | .atRecord cur _ => cur = pos ∧ seg.Clean pos
  | .wordCopied cur r _ => cur = pos ∧ seg.offset = pos ∧ StoresWord seg.bytes pos r.first ∧
      ∀ b, pos + 64 ≤ b → seg.bytes b = nul
  | .wordCounted cur r _ => cur = pos ∧ seg.offset = pos + 64 ∧
      StoresWord seg.bytes pos r.first ∧ ∀ b, pos + 64 ≤ b → seg.bytes b = nul
  | .freqCopied cur r _ => cur = pos ∧ seg.offset = pos + 64 ∧ StoresRecord seg.bytes pos r ∧
      ∀ b, pos + 68 ≤ b → seg.bytes b = nul
  | .start | .exited => False

/-- A step of the writing child: it completes at most one record, behind those in `log`. -/
theorem Child.step_writing {res : List Pair} {junk : ℕ → Byte} {seg seg' : Segment}
    {child child' : Child} {log : List Pair} (hstep : child.step res junk seg = some (seg', child'))
    (hwriting : child.Writing) (hlog : StoresAll seg.bytes 0 log)
    (hwrote : child.Wrote seg (68 * log.length))
    (hfits : 68 * (log.length + (child.left res).length) < (2 ^ 31 : ℤ)) :
    ∃ new, child.left res = new ++ child'.left res ∧ StoresAll seg'.bytes 0 (log ++ new) ∧
      (child'.Writing → child'.Wrote seg' (68 * (log ++ new).length)) ∧
      (¬ child'.Writing → seg'.Clean (68 * (log ++ new).length)) := by
  have hpos : (0 : ℤ) ≤ log.length := Int.natCast_nonneg _
  cases child with
  | start => exact hwriting.elim
  | exited => exact hwriting.elim
  | atRecord cur rest =>
    cases rest with
    | nil => exact hwriting.elim
    | cons r rest =>
      obtain ⟨rfl, rfl⟩ := Prod.mk.inj (Option.some.inj hstep)
      obtain ⟨rfl, hoff, hzero⟩ := hwrote
      refine ⟨[], rfl, ?_, fun _ => ?_, fun h => (h trivial).elim⟩
      · rw [List.append_nil]
        exact hlog.congr fun b hb => Mem.write_of_lt (by omega)
      · rw [List.append_nil]
        refine ⟨rfl, hoff, ⟨junk, Mem.stores_write⟩, fun b hb => ?_⟩
        have hlen := copied_length r.first junk
        exact (Mem.write_of_le (by omega)).trans (hzero b (by omega))
  | wordCopied cur r rest =>
    obtain ⟨rfl, rfl⟩ := Prod.mk.inj (Option.some.inj hstep)
    obtain ⟨rfl, hoff, hword, hzero⟩ := hwrote
    simp only [left, List.length_cons, Nat.cast_add, Nat.cast_one] at hfits
    refine ⟨[], rfl, by simpa using hlog, fun _ => ?_, fun h => (h trivial).elim⟩
    rw [List.append_nil]
    have hadv : toInt (seg.offset + 64) = 68 * log.length + 64 := by
      rw [hoff, toInt_eq (by omega) (by omega)]
    exact ⟨rfl, hadv, hword, hzero⟩
  | wordCounted cur r rest =>
    obtain ⟨rfl, rfl⟩ := Prod.mk.inj (Option.some.inj hstep)
    obtain ⟨rfl, hoff, hword, hzero⟩ := hwrote
    refine ⟨[], rfl, ?_, fun _ => ?_, fun h => (h trivial).elim⟩
    · rw [List.append_nil]
      exact hlog.congr fun b hb => Mem.write_of_lt (by omega)
    · rw [List.append_nil]
      refine ⟨rfl, hoff, ⟨hword.congr fun b hb => Mem.write_of_lt (by omega),
        Mem.stores_write⟩, fun b hb => ?_⟩
      have hlen : (intBytes r.second).length = 4 := rfl
      exact (Mem.write_of_le (by omega)).trans (hzero b (by omega))
  | freqCopied cur r rest =>
    obtain ⟨rfl, rfl⟩ := Prod.mk.inj (Option.some.inj hstep)
    obtain ⟨rfl, hoff, hrec, hzero⟩ := hwrote
    simp only [left, List.length_cons, Nat.cast_add, Nat.cast_one] at hfits
    have hclean : Segment.Clean { seg with offset := toInt (seg.offset + 4) }
        (68 * (log ++ [r]).length) := by
      simp only [List.length_append, List.length_cons, List.length_nil]
      push_cast
      refine ⟨?_, fun b hb => hzero b (by omega)⟩
      have := toInt_eq (x := 68 * log.length + 64 + 4) (by omega) (by omega)
      rw [hoff, this]
      ring
    refine ⟨[r], rfl, hlog.concat (by simpa using hrec), fun h => ?_, fun _ => hclean⟩
    refine ⟨?_, hclean⟩
    simp only [List.length_append, List.length_cons, List.length_nil]
    push_cast
    ring

/-- A step of a child that is not writing only makes it read the offset, or exit. -/
theorem Child.step_idle {res : List Pair} {junk : ℕ → Byte} {seg seg' : Segment}
    {child child' : Child} (hstep : child.step res junk seg = some (seg', child'))
    (hidle : ¬ child.Writing) :
    seg' = seg ∧ child'.left res = child.left res ∧
      (child'.Writing → child = .start ∧ res ≠ [] ∧ child' = .atRecord seg.offset res) := by
  cases child with
  | start =>
    obtain ⟨rfl, rfl⟩ := Prod.mk.inj (Option.some.inj hstep)
    refine ⟨rfl, rfl, fun h => ⟨rfl, ?_, rfl⟩⟩
    rintro rfl
    exact h
  | atRecord cur rest =>
    cases rest with
    | nil =>
      obtain ⟨rfl, rfl⟩ := Prod.mk.inj (Option.some.inj hstep)
      exact ⟨rfl, rfl, fun h => h.elim⟩
    | cons r rest => exact (hidle trivial).elim
  | wordCopied | wordCounted | freqCopied => exact (hidle trivial).elim
  | exited => simp [step] at hstep

namespace Results

variable {r : Results} {s t : Shared r.N} {log : List Pair}

def leftAt (r : Results) (s : Shared r.N) (c : Fin r.N) : Multiset Pair :=
  ((s.children c).left (r.res c) : List Pair)

/-- The records in `log` are complete, and at most one child is writing, right behind them. -/
structure Inv (r : Results) (s : Shared r.N) (log : List Pair) : Prop where
  total : (log : Multiset Pair) + ∑ c, r.leftAt s c = r.all
  stored : StoresAll s.seg.bytes 0 log
  writer : (∀ c, ¬ (s.children c).Writing) ∧ s.seg.Clean (68 * log.length) ∨
    ∃ c, (s.children c).Writing ∧ (∀ d ≠ c, ¬ (s.children d).Writing) ∧
      (s.children c).Wrote s.seg (68 * log.length)

theorem init_inv (h : r.init s) : r.Inv s [] where
  total := by simp [leftAt, h.2, Child.left, all]
  stored := trivial
  writer := .inl ⟨by simp [h.2, Child.Writing], by simp [h.1, Segment.Clean]⟩

theorem Inv.length_le (h : r.Inv s log) (c : Fin r.N) :
    log.length + ((s.children c).left (r.res c)).length ≤ r.all.card := by
  have hc : r.leftAt s c ≤ ∑ d, r.leftAt s d :=
    Finset.single_le_sum (f := r.leftAt s) (by simp) (Finset.mem_univ c)
  have hle := Multiset.card_le_card hc
  have hcard : (r.leftAt s c).card = ((s.children c).left (r.res c)).length := Multiset.coe_card _
  rw [← h.total, Multiset.card_add, Multiset.coe_card]
  omega

/-- Records that a child completes move from what is left to the log. -/
theorem Inv.total_update (h : r.Inv s log) (seg : Segment) {c : Fin r.N} {child : Child}
    (new : List Pair) (hnew : (s.children c).left (r.res c) = new ++ child.left (r.res c)) :
    ((log ++ new : List Pair) : Multiset Pair) +
      ∑ d, r.leftAt ⟨seg, Function.update s.children c child⟩ d = r.all := by
  have hupd : r.leftAt ⟨seg, Function.update s.children c child⟩ =
      Function.update (r.leftAt s) c (child.left (r.res c) : List Pair) := by
    funext d
    rcases eq_or_ne d c with rfl | hd
    · simp [leftAt]
    · simp [leftAt, hd]
  have hold : r.leftAt s c = (new : Multiset Pair) + (child.left (r.res c) : List Pair) := by
    simp [leftAt, hnew]
  rw [hupd, Finset.sum_update_of_mem (Finset.mem_univ c), ← h.total,
    ← Finset.add_sum_erase _ (r.leftAt s) (Finset.mem_univ c), hold, ← Multiset.coe_add,
    Finset.sdiff_singleton_eq_erase]
  simp only [add_assoc]

theorem Inv.step (hfits : 68 * r.all.card < 2 ^ 31) (h : r.Inv s log)
    {a : Fin r.N × (ℕ → Byte)} (hu : r.Undisturbed s a) (hact : r.act s a = some t) :
    ∃ log', r.Inv t log' := by
  obtain ⟨c, junk⟩ := a
  obtain ⟨⟨seg', child'⟩, hstep, rfl⟩ := Option.map_eq_some_iff.mp hact
  by_cases hw : (s.children c).Writing
  · have hcw : (∀ d ≠ c, ¬ (s.children d).Writing) ∧
        (s.children c).Wrote s.seg (68 * log.length) := by
      rcases h.writer with ⟨hnone, -⟩ | ⟨d, -, honly, hwrote⟩
      · exact absurd hw (hnone c)
      · obtain rfl : c = d := by_contra fun hne => honly c hne hw
        exact ⟨honly, hwrote⟩
    have hlen := h.length_le c
    obtain ⟨new, hleft, hstored, hwrote', hclean⟩ :=
      Child.step_writing hstep hw h.stored hcw.2 (by omega)
    refine ⟨log ++ new, h.total_update seg' new hleft, hstored, ?_⟩
    by_cases hw' : child'.Writing
    · refine .inr ⟨c, by simpa using hw', fun d hd => ?_, by simpa using hwrote' hw'⟩
      simpa [hd] using hcw.1 d hd
    · refine .inl ⟨fun d => ?_, hclean hw'⟩
      rcases eq_or_ne d c with rfl | hd
      · simpa using hw'
      · simpa [hd] using hcw.1 d hd
  · obtain ⟨rfl, hleft, hread⟩ := Child.step_idle hstep hw
    have htotal := h.total_update s.seg [] hleft.symm
    rw [List.append_nil] at htotal
    refine ⟨log, htotal, h.stored, ?_⟩
    by_cases hw' : child'.Writing
    · obtain ⟨hstart, hres, rfl⟩ := hread hw'
      have hnone := hu hstart hres
      have hclean : s.seg.Clean (68 * log.length) := by
        rcases h.writer with ⟨-, hclean⟩ | ⟨d, hd, -, -⟩
        · exact hclean
        · exact absurd hd (hnone d)
      refine .inr ⟨c, by simpa using hw', fun d hd => ?_, ?_⟩
      · simpa [hd] using hnone d
      · simpa using ⟨hclean.1, hclean⟩
    · have hwriting (d : Fin r.N) (hd : ¬ (s.children d).Writing) :
          ¬ (Function.update s.children c child' d).Writing := by
        rcases eq_or_ne d c with rfl | hdc
        · simpa using hw'
        · simpa [hdc] using hd
      rcases h.writer with ⟨hnone, hclean⟩ | ⟨d, hd, honly, hwrote⟩
      · exact .inl ⟨fun d => hwriting d (hnone d), hclean⟩
      · have hdc : d ≠ c := fun e => hw (e ▸ hd)
        refine .inr ⟨d, ?_, fun e he => hwriting e (honly e he), ?_⟩
        · simpa [hdc] using hd
        · simpa [hdc] using hwrote

/-- A run with undisturbed reads is one of the interleavings of the children. -/
theorem reachable_of_careful (h : r.careful.Reachable s) : r.system.Reachable s := h.of_guarded

theorem careful_inv (hfits : 68 * r.all.card < 2 ^ 31) (h : r.careful.Reachable s) :
    ∃ log, r.Inv s log :=
  h.invariant (I := fun s => ∃ log, r.Inv s log) (fun _ h₀ => ⟨[], init_inv h₀⟩)
    fun _ _ _ hs st => by
      obtain ⟨log, hlog⟩ := hs
      obtain ⟨a, ha⟩ := st
      obtain ⟨hu, hact⟩ := System.guarded_eq_some.mp ha
      exact hlog.step hfits hu hact

theorem readable_of_mem {p : Pair} (h : p ∈ r.all) : p.Readable := by
  obtain ⟨c, -, hc⟩ := Multiset.mem_sum.mp h
  have hp : p ∈ r.res c := hc
  exact ⟨r.word_length c p hp, r.word_nul c p hp, r.freq_int c p hp⟩

theorem card_all_le (r : Results) : r.all.card ≤ r.N * r.K := by
  rw [all, Multiset.card_sum]
  calc ∑ c, Multiset.card (r.res c : Multiset Pair) ≤ ∑ _c : Fin r.N, r.K :=
        Finset.sum_le_sum fun c _ => r.size_le c
    _ = r.N * r.K := by simp

/-- When all children have exited, the records are those of the children, in the order in
which they were written, and then empty ones. -/
theorem Inv.decoded (hrounds : r.N * r.K < 2 ^ 31) (h : r.Inv s log)
    (hexit : ∀ c, s.children c = .exited) :
    (log : Multiset Pair) = r.all ∧
      r.decoded s = some (log ++ List.replicate (r.N * r.K - log.length) ⟨[], 0⟩) := by
  have hleft : ∑ c, r.leftAt s c = 0 := by simp [leftAt, hexit, Child.left]
  have hall : (log : Multiset Pair) = r.all := by
    rw [← h.total, hleft, add_zero]
  have hclean : s.seg.Clean (68 * log.length) := by
    rcases h.writer with ⟨-, hclean⟩ | ⟨c, hc, -, -⟩
    · exact hclean
    · simp [hexit, Child.Writing] at hc
  have hlen : log.length = r.all.card := by rw [← hall, Multiset.coe_card]
  have hread : ∀ p ∈ log, p.Readable := fun p hp => by
    rw [← Multiset.mem_coe, hall] at hp
    exact readable_of_mem hp
  have hsize : 68 * (r.N * r.K) ≤ (shmemSize r.N r.K - 5 - 0).toNat := by
    rw [shmemSize_eq hrounds]
    omega
  rw [Results.decoded, rounds_eq hrounds]
  exact ⟨hall, decode_of_storesAll h.stored hread (by simpa using hclean.2)
    (hlen ▸ r.card_all_le) hsize⟩

/-- No result is lost as long as no child reads the offset while another one is writing, and
`N * K` and the offset fit in an `int`. -/
theorem no_result_lost (r : Results) (hrounds : r.N * r.K < 2 ^ 31)
    (hfits : 68 * r.all.card < 2 ^ 31) {s : Shared r.N}
    (h : r.careful.Reachable s) (hexit : ∀ c, s.children c = .exited) : r.NothingLost s := by
  obtain ⟨log, hlog⟩ := careful_inv hfits h
  obtain ⟨hall, hdec⟩ := hlog.decoded hrounds hexit
  refine ⟨_, hdec, ?_⟩
  rw [← hall, ← Multiset.coe_add, Multiset.coe_card, Multiset.coe_replicate]

/-- Two children with one word each. -/
def two : Results where
  N := 2
  K := 1
  res c := [⟨[byte (65 + c)], 1⟩]
  size_le := by decide
  word_length := by decide
  word_nul := by decide
  freq_int := by decide

/-- `n` steps of child `c`. -/
def twoSteps (n : ℕ) (c : Fin two.N) : List (Fin two.N × (ℕ → Byte)) :=
  List.replicate n (c, fun _ => nul)

/-- Both children read the offset before either advances it. -/
def twoRaced : Shared two.N :=
  (System.perform two.act
    ((List.finRange two.N).flatMap (twoSteps 1) ++ (List.finRange two.N).flatMap (twoSteps 5))
    ⟨⟨0, fun _ => nul⟩, fun _ => .start⟩).get (by decide +kernel)

/-- The children run one after another. -/
def twoSerial : Shared two.N :=
  (System.perform (System.guarded two.act two.Undisturbed)
    ((List.finRange two.N).flatMap (twoSteps 6))
    ⟨⟨0, fun _ => nul⟩, fun _ => .start⟩).get (by decide +kernel)

theorem reachable_twoRaced : two.system.Reachable twoRaced :=
  ⟨_, ⟨rfl, fun _ => rfl⟩, System.steps_of_perform (Option.some_get _).symm⟩

theorem reachable_twoSerial : two.careful.Reachable twoSerial :=
  ⟨_, ⟨rfl, fun _ => rfl⟩, System.steps_of_perform (Option.some_get _).symm⟩

theorem no_result_lost_twoSerial : two.NothingLost twoSerial :=
  no_result_lost two (by decide) (by decide +kernel) reachable_twoSerial (by decide +kernel)

/-- The result of child 0 is overwritten. -/
theorem result_lost_twoRaced :
    ¬ ∀ s, two.system.Reachable s → (∀ c, s.children c = .exited) → two.NothingLost s := by
  intro h
  obtain ⟨recs, hrecs, hall⟩ := h twoRaced reachable_twoRaced (by decide +kernel)
  have hdec : two.decoded twoRaced = some [⟨[byte 66], 1⟩, ⟨[], 0⟩] := by decide +kernel
  obtain rfl := Option.some.inj (hdec.symm.trans hrecs)
  exact absurd hall (by decide +kernel)

end Results

end Cs342.TopK
