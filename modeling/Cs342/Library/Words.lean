import Mathlib.Data.List.Nodup
import Cs342.Library.Bytes

/-!
# 64-bit words

Words read as numbers: a shift to the right divides, a mask of low bits takes the
remainder, and a test of one bit reads that bit. A file gives the word at each byte
offset, the lowest byte first, or the reason why it cannot be read. A `for` loop that
steps its counter by a constant, and is not left early, folds its body over the values
of the counter.
-/

namespace Cs342.Library

abbrev Word := BitVec 64

section Bits

variable (x : Word)

theorem toNat_shr (n : ℕ) : (x >>> n).toNat = x.toNat / 2 ^ n := by
  rw [BitVec.toNat_ushiftRight, Nat.shiftRight_eq_div_pow]

theorem toNat_mask {n : ℕ} (hn : n ≤ 64) :
    (x &&& BitVec.ofNat 64 (2 ^ n - 1)).toNat = x.toNat % 2 ^ n := by
  have hpow : 2 ^ n - 1 < 2 ^ 64 := by
    have := Nat.pow_le_pow_right (show 0 < 2 by decide) hn
    have := Nat.two_pow_pos n
    omega
  rw [BitVec.toNat_and, BitVec.toNat_ofNat, Nat.mod_eq_of_lt hpow,
    Nat.and_two_pow_sub_one_eq_mod]

/-- A mask keeps the low bits. -/
theorem mask_eq_extract {n : ℕ} (hn : n ≤ 64) :
    x &&& BitVec.ofNat 64 (2 ^ n - 1) = (x.extractLsb' 0 n).setWidth 64 := by
  apply BitVec.eq_of_toNat_eq
  have hlt : x.toNat % 2 ^ n < 2 ^ 64 := (Nat.mod_le _ _).trans_lt x.isLt
  rw [toNat_mask x hn, BitVec.toNat_setWidth, BitVec.extractLsb'_toNat, Nat.shiftRight_zero,
    Nat.mod_eq_of_lt hlt]

/-- `x & (1 << i)` as a truth value. -/
theorem and_bit_ne_zero {i : ℕ} (hi : i < 64) :
    x &&& 1#64 <<< i ≠ 0 ↔ x.getLsbD i = true := by
  have hbit : BitVec.twoPow 64 i ≠ 0#64 := by
    intro h
    have htoNat := congrArg BitVec.toNat h
    rw [BitVec.toNat_twoPow_of_lt hi] at htoNat
    simp at htoNat
  rw [← BitVec.twoPow_eq, BitVec.and_twoPow]
  cases x.getLsbD i <;> simp [hbit]

/-- `(x >> i) & 1` as a truth value. -/
theorem shr_and_one_ne_zero (i : ℕ) : (x >>> i) &&& 1#64 ≠ 0 ↔ x.getLsbD i = true := by
  have hone : 1#64 = 1#64 <<< 0 := rfl
  rw [hone, and_bit_ne_zero (x >>> i) (show 0 < 64 by decide), BitVec.getLsbD_ushiftRight,
    Nat.add_zero]

end Bits

/-! ## Reading words -/

/-- The eight bytes at `a`, the lowest first. -/
def Mem.uint64 (m : Mem) (a : ℤ) : Word :=
  BitVec.ofNat 64 ((List.range 8).foldr (fun k high => (m (a + k)).val + 256 * high) 0)

inductive Fault where
  | error | endOfFile
  deriving DecidableEq, Repr

structure File where
  bytes : Mem
  fault : ℤ → Option Fault

namespace File

/-- Read the word at an offset. -/
def read (f : File) (pos : ℤ) : Except Fault Word :=
  match f.fault pos with
  | some e => .error e
  | none => .ok (f.bytes.uint64 pos)

/-- The variable into which the word at an offset is read. -/
def readInto (f : File) (old : Word) (pos : ℤ) : Word :=
  match f.read pos with
  | .ok word => word
  | .error _ => old

/-- Every read succeeds. -/
def Readable (f : File) : Prop := ∀ pos, f.fault pos = none

theorem Readable.read {f : File} (h : f.Readable) (pos : ℤ) :
    f.read pos = .ok (f.bytes.uint64 pos) := by
  simp [File.read, h pos]

theorem Readable.readInto {f : File} (h : f.Readable) (old : Word) (pos : ℤ) :
    f.readInto old pos = f.bytes.uint64 pos := by
  simp [File.readInto, h.read]

end File

/-! ## Counting -/

/-- How one round of a loop ends: the next round follows, or the loop is left, or the function. -/
inductive Flow (σ : Type*) where
  | next (s : σ)
  | stop (s : σ)
  | exit

variable {σ : Type*}

/-- `for (; cond i; i += k) body`, for at most so many rounds. -/
def forLoop (cond : Word → Bool) (k : Word) (body : Word → σ → Flow σ) : ℕ → Word → σ → Option σ
  | 0, _, _ => none
  | rounds + 1, i, s =>
    if cond i then
      match body i s with
      | .next t => forLoop cond k body rounds (i + k) t
      | .stop t => some t
      | .exit => none
    else some s

/-- The numbers from `a` in steps of `k`, as words. -/
def wordRange (a n k : ℕ) : List Word := (List.range n).map fun i => BitVec.ofNat 64 (a + k * i)

theorem wordRange_succ (a n k : ℕ) :
    wordRange a (n + 1) k = BitVec.ofNat 64 a :: wordRange (a + k) n k := by
  have hshift (i : ℕ) : a + k * (i + 1) = a + k + k * i := by
    rw [Nat.mul_succ]
    omega
  simp [wordRange, List.range_succ_eq_map, hshift]

/-- The last number apart. -/
theorem wordRange_concat (a n k : ℕ) :
    wordRange a (n + 1) k = wordRange a n k ++ [BitVec.ofNat 64 (a + k * n)] := by
  rw [wordRange, wordRange, List.range_succ, List.map_append, List.map_singleton]

theorem sorted_wordRange {a n k : ℕ} (hk : 0 < k) (hfit : a + k * n < 2 ^ 64 + k) :
    (wordRange a n k).Pairwise (· < ·) := by
  have hlt {i : ℕ} (hi : i ∈ List.range n) : a + k * i < 2 ^ 64 := by
    have := Nat.mul_le_mul_left k (Nat.succ_le_of_lt (List.mem_range.mp hi))
    rw [Nat.mul_succ] at this
    omega
  refine List.pairwise_map.mpr (List.pairwise_lt_range.imp_of_mem fun hi hj hij => ?_)
  have := Nat.mul_lt_mul_of_pos_left hij hk
  rw [BitVec.lt_def, BitVec.toNat_ofNat, BitVec.toNat_ofNat, Nat.mod_eq_of_lt (hlt hi),
    Nat.mod_eq_of_lt (hlt hj)]
  omega

theorem nodup_wordRange {a n k : ℕ} (hk : 0 < k) (hfit : a + k * n < 2 ^ 64 + k) :
    (wordRange a n k).Nodup :=
  (sorted_wordRange hk hfit).imp BitVec.ne_of_lt

theorem mem_wordRange {a n k : ℕ} {x : Word} (hfit : a + k * n < 2 ^ 64 + k) :
    x ∈ wordRange a n k ↔ ∃ i < n, x.toNat = a + k * i := by
  have hlt {i : ℕ} (hi : i < n) : a + k * i < 2 ^ 64 := by
    have := Nat.mul_le_mul_left k (Nat.succ_le_of_lt hi)
    rw [Nat.mul_succ] at this
    omega
  simp only [wordRange, List.mem_map, List.mem_range]
  refine exists_congr fun i => and_congr_right fun hi => ?_
  rw [← BitVec.toNat_inj, BitVec.toNat_ofNat, Nat.mod_eq_of_lt (hlt hi), eq_comm]

variable {cond : Word → Bool} {k a b : Word} {body : Word → σ → Flow σ} {f : σ → Word → σ}
  {n rounds : ℕ} {s : σ}

/-- A loop that is not left early folds its body over the values of the counter. -/
theorem forLoop_eq_foldl
    (hbody : ∀ i ∈ wordRange a.toNat n k.toNat, ∀ s, body i s = .next (f s i))
    (hfit : a.toNat + k.toNat * n < 2 ^ 64) (hrounds : n < rounds)
    (hin : ∀ i < n, cond (BitVec.ofNat 64 (a.toNat + k.toNat * i)) = true)
    (hout : cond (BitVec.ofNat 64 (a.toNat + k.toNat * n)) = false) :
    forLoop cond k body rounds a s = some ((wordRange a.toNat n k.toNat).foldl f s) := by
  induction n generalizing a rounds s with
  | zero =>
    obtain ⟨rounds, rfl⟩ := Nat.exists_eq_succ_of_ne_zero hrounds.ne'
    have hstop : cond a = false := by simpa using hout
    simp [forLoop, hstop, wordRange]
  | succ n ih =>
    obtain ⟨rounds, rfl⟩ := Nat.exists_eq_succ_of_ne_zero (Nat.ne_of_gt (Nat.zero_lt_of_lt hrounds))
    have hgo : cond a = true := by simpa using hin 0 (by omega)
    have hnext : (a + k).toNat = a.toNat + k.toNat := by
      rw [BitVec.toNat_add, Nat.mod_eq_of_lt]
      rw [Nat.mul_succ] at hfit
      omega
    have hshift (i : ℕ) : (a + k).toNat + k.toNat * i = a.toNat + k.toNat * (i + 1) := by
      rw [hnext, Nat.mul_succ]
      omega
    rw [wordRange_succ, ← hnext, BitVec.ofNat_toNat, BitVec.setWidth_eq] at hbody ⊢
    have hrest : forLoop cond k body rounds (a + k) (f s a) =
        some ((wordRange (a + k).toNat n k.toNat).foldl f (f s a)) := by
      apply ih
      · exact fun i hi => hbody i (List.mem_cons_of_mem a hi)
      · rwa [hshift]
      · omega
      · intro i hi
        rw [hshift]
        exact hin (i + 1) (by omega)
      · rwa [hshift]
    simp [forLoop, hgo, hbody a (by simp), hrest]

/-- Counting up to `b`. -/
theorem forLoop_lt (hbody : ∀ i ∈ wordRange a.toNat n k.toNat, ∀ s, body i s = .next (f s i))
    (hfit : a.toNat + k.toNat * n < 2 ^ 64) (hrounds : n < rounds)
    (hin : ∀ i < n, a.toNat + k.toNat * i < b.toNat) (hout : b.toNat ≤ a.toNat + k.toNat * n) :
    forLoop (fun i => i < b) k body rounds a s =
      some ((wordRange a.toNat n k.toNat).foldl f s) := by
  apply forLoop_eq_foldl hbody hfit hrounds
  · intro i hi
    have hlt := hin i hi
    have := b.isLt
    simp only [decide_eq_true_eq, BitVec.lt_def, BitVec.toNat_ofNat]
    rwa [Nat.mod_eq_of_lt (by omega)]
  · simp only [decide_eq_false_iff_not, BitVec.lt_def, BitVec.toNat_ofNat, not_lt]
    rwa [Nat.mod_eq_of_lt hfit]

/-- The rounds that are not left early, and then the rest of the loop. -/
theorem forLoop_add {c : ℕ}
    (hbody : ∀ i ∈ wordRange c n k.toNat, ∀ s, body i s = .next (f s i))
    (hin : ∀ i < n, cond (BitVec.ofNat 64 (c + k.toNat * i)) = true) :
    forLoop cond k body (n + rounds) (BitVec.ofNat 64 c) s =
      forLoop cond k body rounds (BitVec.ofNat 64 (c + k.toNat * n))
        ((wordRange c n k.toNat).foldl f s) := by
  induction n generalizing c s with
  | zero => simp [wordRange]
  | succ n ih =>
    have hgo : cond (BitVec.ofNat 64 c) = true := by simpa using hin 0 (by omega)
    have hshift (i : ℕ) : c + k.toNat + k.toNat * i = c + k.toNat * (i + 1) := by
      rw [Nat.mul_succ]
      omega
    have hnext : BitVec.ofNat 64 c + k = BitVec.ofNat 64 (c + k.toNat) := by
      rw [BitVec.ofNat_add, BitVec.ofNat_toNat, BitVec.setWidth_eq]
    rw [wordRange_succ] at hbody
    have hrest := ih (c := c + k.toNat) (s := f s (BitVec.ofNat 64 c))
      (fun i hi => hbody i (List.mem_cons_of_mem _ hi))
      (fun i hi => by
        rw [hshift]
        exact hin (i + 1) (by omega))
    rw [Nat.succ_add, wordRange_succ, List.foldl_cons, ← hshift, ← hrest]
    simp only [forLoop, hgo, hbody _ List.mem_cons_self, hnext, if_true]

/-- Counting up to `b`, with a round that leaves the loop. -/
theorem forLoop_stop {t : σ}
    (hbody : ∀ i ∈ wordRange a.toNat n k.toNat, ∀ s, body i s = .next (f s i))
    (hfit : a.toNat + k.toNat * n < b.toNat) (hrounds : n < rounds)
    (hstop : body (BitVec.ofNat 64 (a.toNat + k.toNat * n))
      ((wordRange a.toNat n k.toNat).foldl f s) = .stop t) :
    forLoop (fun i => i < b) k body rounds a s = some t := by
  have hb := b.isLt
  have hlt (i : ℕ) (hi : i ≤ n) :
      decide (BitVec.ofNat 64 (a.toNat + k.toNat * i) < b) = true := by
    have hmul := Nat.mul_le_mul_left k.toNat hi
    rw [decide_eq_true_eq, BitVec.lt_def, BitVec.toNat_ofNat, Nat.mod_eq_of_lt (by omega)]
    omega
  obtain ⟨more, rfl⟩ := Nat.exists_eq_add_of_lt hrounds
  have hunroll : forLoop (fun i => i < b) k body (n + (more + 1)) (BitVec.ofNat 64 a.toNat) s = _ :=
    forLoop_add hbody fun i hi => hlt i hi.le
  rw [BitVec.ofNat_toNat, BitVec.setWidth_eq] at hunroll
  rw [Nat.add_assoc, hunroll]
  simp only [forLoop, hlt n le_rfl, hstop, if_true]

end Cs342.Library
