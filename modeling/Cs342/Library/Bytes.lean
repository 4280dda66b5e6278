import Mathlib.Algebra.Order.Ring.Int
import Mathlib.Data.List.Lex
import Mathlib.Logic.Function.Basic
import Mathlib.Order.Fin.Basic
import Mathlib.Tactic.Ring

/-!
# Bytes, C strings and C integers

A memory gives each address a byte. A C string is the bytes up to the first zero, an
`int` is four bytes, the lowest first. Reading back what was written gives the value
written, and a write leaves the bytes outside of it alone.
-/

namespace Cs342.Library

abbrev Byte := Fin 256

def byte (n : ℕ) : Byte := Fin.ofNat 256 n

/-- The byte that ends a string. -/
abbrev nul : Byte := 0

/-- The bytes of a C string in front of its terminating zero. -/
abbrev CString := List Byte

abbrev Mem := ℤ → Byte

/-- The sign of C's `strcmp`; bytes compare as `unsigned char`. -/
def strcmp : CString → CString → ℤ
  | [], [] => 0
  | [], _ :: _ => -1
  | _ :: _, [] => 1
  | x :: s, y :: t => if x < y then -1 else if y < x then 1 else strcmp s t

theorem strcmp_pos_iff {s t : CString} : 0 < strcmp s t ↔ t < s := by
  induction s generalizing t with
  | nil => cases t <;> simp [strcmp]
  | cons x s ih =>
    cases t with
    | nil => simp [strcmp]
    | cons y t =>
      rw [List.cons_lt_cons_iff, strcmp]
      rcases lt_trichotomy x y with h | rfl | h
      · simp [h, h.not_gt, h.ne']
      · simp [ih]
      · simp [h, h.not_gt]

theorem strcmp_eq_zero_iff {s t : CString} : strcmp s t = 0 ↔ s = t := by
  induction s generalizing t with
  | nil => cases t <;> simp [strcmp]
  | cons x s ih =>
    cases t with
    | nil => simp [strcmp]
    | cons y t =>
      rw [strcmp]
      rcases lt_trichotomy x y with h | rfl | h
      · simp [h, h.ne]
      · simp [ih]
      · simp [h, h.not_gt, h.ne']

theorem strcmp_neg_iff {s t : CString} : strcmp s t < 0 ↔ s < t := by
  have hpos := strcmp_pos_iff (s := s) (t := t)
  have hzero := strcmp_eq_zero_iff (s := s) (t := t)
  rcases lt_trichotomy s t with h | h | h
  · have h1 : ¬ 0 < strcmp s t := fun h' => (hpos.mp h').asymm h
    have h2 : strcmp s t ≠ 0 := fun h' => h.ne (hzero.mp h')
    exact ⟨fun _ => h, fun _ => by omega⟩
  · have h1 := hzero.mpr h
    exact ⟨fun _ => by omega, fun h' => absurd h h'.ne⟩
  · have h1 := hpos.mpr h
    exact ⟨fun _ => by omega, fun h' => absurd h h'.asymm⟩

/-- The value a wider integer takes when it is stored in an `int`. -/
def toInt (x : ℤ) : ℤ := x.bmod (2 ^ 32)

theorem toInt_eq {x : ℤ} (hlo : -2 ^ 31 ≤ x) (hhi : x < 2 ^ 31) : toInt x = x := by
  unfold toInt
  simp only [Int.bmod]
  omega

/-- What an `int` can hold. -/
def IsInt (x : ℤ) : Prop := -2 ^ 31 ≤ x ∧ x < 2 ^ 31

instance : DecidablePred IsInt := fun _ => inferInstanceAs (Decidable (_ ∧ _))

theorem IsInt.toInt_eq {x : ℤ} (h : IsInt x) : toInt x = x := Library.toInt_eq h.1 h.2

theorem isInt_toInt (x : ℤ) : IsInt (toInt x) := by
  unfold IsInt toInt
  simp only [Int.bmod]
  omega

theorem toInt_eq_self_iff {x : ℤ} : toInt x = x ↔ IsInt x :=
  ⟨fun h => h ▸ isInt_toInt x, IsInt.toInt_eq⟩

/-- The four bytes of an `int`. -/
def intBytes (x : ℤ) : List Byte :=
  let u := (x % 2 ^ 32).toNat
  [byte u, byte (u / 2 ^ 8), byte (u / 2 ^ 16), byte (u / 2 ^ 24)]

namespace Mem

/-- `memcpy` of the bytes to `a`. -/
def write (m : Mem) (a : ℤ) : List Byte → Mem
  | [] => m
  | b :: bs => Function.update (m.write (a + 1) bs) a b

/-- The C string at `a`, if it ends within `limit` bytes. -/
def cstr (m : Mem) : ℕ → ℤ → Option CString
  | 0, _ => none
  | limit + 1, a => if m a = nul then some [] else (m.cstr limit (a + 1)).map (m a :: ·)

/-- The `int` at `a`. -/
def int (m : Mem) (a : ℤ) : ℤ :=
  toInt ((m a).val + 2 ^ 8 * (m (a + 1)).val + 2 ^ 16 * (m (a + 2)).val + 2 ^ 24 * (m (a + 3)).val)

/-- The bytes from `a` on are these. -/
def Stores (m : Mem) (a : ℤ) : List Byte → Prop
  | [] => True
  | b :: bs => m a = b ∧ m.Stores (a + 1) bs

variable {m m' : Mem} {a b x : ℤ} {bs : List Byte} {s : CString} {limit : ℕ}

theorem write_of_lt (h : b < a) : m.write a bs b = m b := by
  induction bs generalizing a with
  | nil => rfl
  | cons c bs ih => simp [write, h.ne, ih (show b < a + 1 by omega)]

theorem write_of_le (h : a + bs.length ≤ b) : m.write a bs b = m b := by
  induction bs generalizing a with
  | nil => rfl
  | cons c bs ih =>
    simp only [List.length_cons, Nat.cast_add, Nat.cast_one] at h
    simp [write, show b ≠ a by omega, ih (show a + 1 + bs.length ≤ b by omega)]

theorem stores_write : (m.write a bs).Stores a bs := by
  suffices ∀ {m' : Mem}, (∀ b, a ≤ b → m' b = m.write a bs b) → m'.Stores a bs from
    this fun _ _ => rfl
  induction bs generalizing a with
  | nil => exact fun _ => trivial
  | cons c bs ih =>
    intro m' h
    refine ⟨by simpa [write] using h a le_rfl, ih fun b hb => ?_⟩
    simpa [write, show b ≠ a by omega] using h b (by omega)

/-- A write elsewhere leaves the bytes as they are. -/
theorem Stores.congr (h : m.Stores a bs)
    (heq : ∀ b, a ≤ b → b < a + bs.length → m' b = m b) : m'.Stores a bs := by
  induction bs generalizing a with
  | nil => trivial
  | cons c bs ih =>
    simp only [List.length_cons, Nat.cast_add, Nat.cast_one] at heq
    exact ⟨(heq a le_rfl (by omega)).trans h.1, ih h.2 fun b _ _ => heq b (by omega) (by omega)⟩

theorem stores_append {bs' : List Byte} :
    m.Stores a (bs ++ bs') ↔ m.Stores a bs ∧ m.Stores (a + bs.length) bs' := by
  induction bs generalizing a with
  | nil => simp [Stores]
  | cons c bs ih =>
    have hnext : a + 1 + (bs.length : ℤ) = a + ((c :: bs).length : ℕ) := by
      simp only [List.length_cons]
      push_cast
      ring
    rw [List.cons_append, Stores, Stores, ih, hnext, and_assoc]

/-- In front of a string that ends, bytes make one that ends at the first zero among all of
them. -/
theorem Stores.takeWhile {xs ys : List Byte} (hxs : m.Stores a xs)
    (hys : m.Stores (a + xs.length) (ys.takeWhile (· ≠ nul) ++ nul :: bs)) :
    ∃ bs', m.Stores a ((xs ++ ys).takeWhile (· ≠ nul) ++ nul :: bs') := by
  induction xs generalizing a with
  | nil => exact ⟨bs, by simpa using hys⟩
  | cons x xs ih =>
    obtain ⟨hx, hxs⟩ := hxs
    by_cases hnul : x = nul
    · exact ⟨[], by simpa [hnul, Stores] using hx.trans hnul⟩
    · have hnext : a + ((x :: xs).length : ℕ) = a + 1 + (xs.length : ℤ) := by
        simp only [List.length_cons]
        push_cast
        ring
      obtain ⟨bs', h⟩ := ih hxs (hnext ▸ hys)
      refine ⟨bs', ?_⟩
      rw [List.cons_append, List.takeWhile_cons, if_pos (by simpa using hnul)]
      exact ⟨hx, h⟩

/-- The string found at `a` is the one stored there. -/
theorem Stores.cstr (h : m.Stores a (s ++ nul :: bs)) (hs : nul ∉ s) (hlimit : s.length < limit) :
    m.cstr limit a = some s := by
  induction s generalizing a limit with
  | nil =>
    obtain ⟨n, rfl⟩ := Nat.exists_eq_succ_of_ne_zero hlimit.ne'
    simp [Mem.cstr, h.1]
  | cons c s ih =>
    obtain ⟨n, rfl⟩ := Nat.exists_eq_succ_of_ne_zero (Nat.ne_of_gt (Nat.zero_lt_of_lt hlimit))
    have hc : c ≠ nul := fun e => hs (by simp [e])
    have := ih h.2 (fun h => hs (List.mem_cons_of_mem _ h)) (by simpa using hlimit)
    simp [Mem.cstr, h.1, hc, this]

/-- The `int` found at `a` is the one stored there. -/
theorem Stores.int (h : m.Stores a (intBytes x)) (hlo : -2 ^ 31 ≤ x) (hhi : x < 2 ^ 31) :
    m.int a = x := by
  obtain ⟨h0, h1, h2, h3, -⟩ := h
  rw [show a + 1 + 1 = a + 2 by ring] at h2
  rw [show a + 1 + 1 + 1 = a + 3 by ring] at h3
  rw [Mem.int, h0, h1, h2, h3]
  have hx : ((x % 2 ^ 32).toNat : ℤ) = x % 2 ^ 32 := Int.toNat_of_nonneg (by omega)
  simp only [byte, Fin.val_ofNat, toInt]
  generalize (x % 2 ^ 32).toNat = u at hx ⊢
  have hu : (((u % 256 : ℕ) : ℤ) + 2 ^ 8 * ((u / 2 ^ 8 % 256 : ℕ) : ℤ) +
      2 ^ 16 * ((u / 2 ^ 16 % 256 : ℕ) : ℤ) + 2 ^ 24 * ((u / 2 ^ 24 % 256 : ℕ) : ℤ)) = u := by
    omega
  rw [hu, hx, Int.bmod]
  omega

end Mem

end Cs342.Library
