import Cs342.Library.Scanf

/-!
# strtoul and atoi

`strtoul` with base 0 tells the base of a number from the way it begins: `0x` for base 16, another
zero for base 8, and else base 10. So a number is read back if it has been printed with its mark.
Without the mark it is read in a smaller base than it has been printed in, up to the first digit
that is none of that base, and what is found is too small, except for a single digit.
-/

namespace Cs342.Library

/-- The bytes of a text. -/
def ascii (s : String) : CString := s.toList.map fun c => byte c.toNat

/-- `strtoul(s, 0, 0)`. -/
def strtoul (s : CString) : Word :=
  let s := s.dropWhile isSpace
  let negative : Bool := s.head? = some minus
  let digits := skipSign s
  if digits.take 2 ∈ hexMarks then
    toUnsignedLong negative (numeralValue 16 ((digits.drop 2).takeWhile (isDigitOf 16)))
  else if digits.head? = some (byte 48) then
    toUnsignedLong negative (numeralValue 8 (digits.takeWhile (isDigitOf 8)))
  else toUnsignedLong negative (numeralValue 10 (digits.takeWhile (isDigitOf 10)))

/-- The `int` made of what `strtol(s, 0, 10)` finds. -/
def atoi (s : CString) : ℤ :=
  let s := s.dropWhile isSpace
  let negative : Bool := s.head? = some minus
  toInt (toLong negative (numeralValue 10 ((skipSign s).takeWhile (isDigitOf 10)))).toInt

/-- `0x%0*lx`. -/
def hexText (width : ℕ) (x : Word) : CString := ascii "0x" ++ numeral 16 width x.toNat

/-- `%d`. -/
def intText (x : ℤ) : CString :=
  if x < 0 then minus :: numeral 10 1 x.natAbs else numeral 10 1 x.natAbs

variable {s : CString}

/-- A string that begins with a digit has neither blanks nor a sign in front. -/
theorem front_eq (h : ∀ c ∈ s.head?, isDigitOf 16 c = true) :
    s.dropWhile isSpace = s ∧ skipSign s = s ∧ s.head? ≠ some minus := by
  cases s with
  | nil => simp [skipSign]
  | cons c s =>
    obtain ⟨hplus, hminus, hspace⟩ := not_digit c (h c rfl)
    simp [skipSign, hplus, hminus, hspace]

theorem toUnsignedLong_toNat (x : Word) : toUnsignedLong false x.toNat = x := by
  have hx : ¬ 2 ^ 64 ≤ x.toNat := not_le.mpr x.isLt
  rw [toUnsignedLong, if_neg hx]
  simp

/-- A number that is printed with its mark is read back. -/
theorem strtoul_hexText (width : ℕ) (x : Word) : strtoul (hexText width x) = x := by
  have htext : hexText width x = byte 48 :: byte 120 :: numeral 16 width x.toNat := rfl
  have hmark : [byte 48, byte 120] ∈ hexMarks := by decide
  have hdigit : isDigitOf 16 (byte 48) = true := by decide
  have hfront : ∀ c ∈ (hexText width x).head?, isDigitOf 16 c = true := by
    rw [htext]
    rintro c ⟨⟩
    exact hdigit
  obtain ⟨hdrop, hskip, hminus⟩ := front_eq hfront
  have hdigits : (numeral 16 width x.toNat).takeWhile (isDigitOf 16) = numeral 16 width x.toNat :=
    List.takeWhile_eq_self_iff.mpr fun c hc => isDigitOf_of_mem_numeral (by decide) le_rfl hc
  simp only [strtoul, hdrop, hskip, hminus, decide_false]
  rw [htext, List.take_succ_cons, List.take_succ_cons, List.take_zero, if_pos hmark,
    List.drop_succ_cons, List.drop_succ_cons, List.drop_zero, hdigits,
    numeralValue_numeral (by decide) le_rfl, toUnsignedLong_toNat]

/-- The `int` of a `long` that is one. -/
theorem toInt_toLong {x : ℤ} (hx : IsInt x) : toInt (toLong (x < 0) x.natAbs).toInt = x := by
  obtain ⟨hlo, hhi⟩ := hx
  have hlong : (if decide (x < 0) = true then max (-(x.natAbs : ℤ)) (-2 ^ 63)
      else min (x.natAbs : ℤ) (2 ^ 63 - 1)) = x := by
    simp only [decide_eq_true_eq]
    split_ifs <;> omega
  rw [toLong, hlong, BitVec.toInt_ofInt, Int.bmod_eq_of_le (by omega) (by omega)]
  exact toInt_eq hlo hhi

/-- An `int` is read back. -/
theorem atoi_intText {x : ℤ} (hx : IsInt x) : atoi (intText x) = x := by
  have hall : ∀ c ∈ numeral 10 1 x.natAbs, isDigitOf 10 c = true := fun c hc =>
    isDigitOf_of_mem_numeral (by decide) (by decide) hc
  have hdigits : (numeral 10 1 x.natAbs).takeWhile (isDigitOf 10) = numeral 10 1 x.natAbs :=
    List.takeWhile_eq_self_iff.mpr hall
  have hvalue := numeralValue_numeral (show 1 < 10 by decide) (by decide) 1 x.natAbs
  by_cases hneg : x < 0
  · have hspace : isSpace minus = false := by decide
    have hresult := toInt_toLong hx
    rw [intText, if_pos hneg]
    simp only [hneg, decide_true] at hresult
    simp [atoi, skipSign, hspace, hdigits, hvalue, hresult]
  · have hfront : ∀ c ∈ (numeral 10 1 x.natAbs).head?, isDigitOf 16 c = true := by
      intro c hc
      have hdigit : digitValue c < 10 := of_decide_eq_true (hall c (List.mem_of_mem_head? hc))
      exact decide_eq_true (hdigit.trans (by decide))
    obtain ⟨hdrop, hskip, hminus⟩ := front_eq hfront
    have hresult := toInt_toLong hx
    rw [intText, if_neg hneg]
    simp only [hneg, decide_false] at hresult
    simp only [atoi, hdrop, hskip, hminus, hdigits, hvalue, decide_false, hresult]

/-! ## Reading digits in a smaller base -/

/-- The leading digits of a number, read in a smaller base. -/
theorem ofDigits_drop_lt {b c n : ℕ} (hb : 0 < b) (hbc : b < c) (hc : 1 < c) (hn : b ≤ n) (i : ℕ)
    (hdigits : ∀ d ∈ (Nat.digits c n).drop i, d < b) :
    Nat.ofDigits b ((Nat.digits c n).drop i) < n := by
  have hpos : 0 < n := hb.trans_le hn
  cases i with
  | zero =>
    rw [List.drop_zero] at hdigits ⊢
    have hle := (Nat.ofDigits_monotone (Nat.digits c (n / c)) hbc.le).trans_eq
      (Nat.ofDigits_digits c (n / c))
    have hsplit := Nat.mod_add_div n c
    rw [Nat.digits_def' hc hpos] at hdigits ⊢
    have hlow : n % c < b := hdigits _ List.mem_cons_self
    have hhigh : 0 < n / c := by
      by_contra hnone
      rw [Nat.eq_zero_of_not_pos hnone] at hsplit
      omega
    rw [Nat.ofDigits_cons]
    calc n % c + b * Nat.ofDigits b (Nat.digits c (n / c))
        ≤ n % c + b * (n / c) := by gcongr
      _ < n % c + c * (n / c) := by gcongr
      _ = n := hsplit
  | succ i =>
    calc Nat.ofDigits b ((Nat.digits c n).drop (i + 1))
        ≤ Nat.ofDigits c ((Nat.digits c n).drop (i + 1)) := Nat.ofDigits_monotone _ hbc.le
      _ = n / c ^ (i + 1) := (Nat.self_div_pow_eq_ofDigits_drop (i + 1) n hc).symm
      _ < n := Nat.div_lt_self hpos (Nat.one_lt_pow (Nat.succ_ne_zero i) hc)

/-- The digits that are printed of a number. -/
theorem numeral_one {base n : ℕ} (hn : n ≠ 0) :
    numeral base 1 n = ((Nat.digits base n).map digitOf).reverse := by
  have hlength : 1 - (Nat.digits base n).length = 0 := by
    have hne : Nat.digits base n ≠ [] := Nat.digits_ne_nil_iff_ne_zero.mpr hn
    have := List.length_pos_iff.mpr hne
    omega
  rw [numeral, List.rightpad, hlength, List.replicate_zero, List.append_nil]

/-- What a row of hexadecimal digits stands for up to the first one that is no decimal digit. -/
theorem numeralValue_takeWhile (n : ℕ) (hn : n ≠ 0) : ∃ i,
    (∀ d ∈ (Nat.digits 16 n).drop i, d < 10) ∧
    numeralValue 10 ((numeral 16 1 n).takeWhile (isDigitOf 10)) =
      Nat.ofDigits 10 ((Nat.digits 16 n).drop i) := by
  obtain ⟨k, hk⟩ : ∃ k, (numeral 16 1 n).takeWhile (isDigitOf 10) = (numeral 16 1 n).take k :=
    ⟨_, List.takeWhile_eq_take_findIdx_not⟩
  have hdigit : ∀ c ∈ (numeral 16 1 n).take k, isDigitOf 10 c = true := by
    rw [← hk]
    exact fun c hc => List.mem_takeWhile_imp hc
  have hvalue : ∀ d ∈ Nat.digits 16 n, digitValue (digitOf d) = d := fun d hd =>
    digitValue_digitOf (Nat.digits_lt_base (by decide) hd)
  refine ⟨(Nat.digits 16 n).length - k, ?_, ?_⟩
  all_goals rw [numeral_one hn, List.take_reverse, List.length_map, ← List.map_drop] at *
  · intro d hd
    have hd' := hdigit (digitOf d) (List.mem_reverse.mpr (List.mem_map_of_mem hd))
    rw [isDigitOf, hvalue d (List.mem_of_mem_drop hd)] at hd'
    exact of_decide_eq_true hd'
  · rw [hk, numeralValue, List.reverse_reverse, List.map_map]
    congr 1
    refine (List.map_congr_left fun d hd => ?_).trans (List.map_id _)
    exact hvalue d (List.mem_of_mem_drop hd)

/-- The first digit that is printed of a number is not zero. -/
theorem head_numeral {n : ℕ} (hn : n ≠ 0) :
    ∃ c, (numeral 16 1 n).head? = some c ∧ isDigitOf 16 c = true ∧ c ≠ byte 48 := by
  have hne : Nat.digits 16 n ≠ [] := Nat.digits_ne_nil_iff_ne_zero.mpr hn
  have hlast := Nat.getLast_digit_ne_zero 16 hn
  have hlt : (Nat.digits 16 n).getLast hne < 16 :=
    Nat.digits_lt_base (by decide) (List.getLast_mem hne)
  have hdigit : ∀ d < 16, d ≠ 0 → isDigitOf 16 (digitOf d) = true ∧ digitOf d ≠ byte 48 := by
    decide
  refine ⟨digitOf ((Nat.digits 16 n).getLast hne), ?_, hdigit _ hlt hlast⟩
  rw [numeral_one hn, List.head?_reverse, List.getLast?_map, List.getLast?_eq_some_getLast hne,
    Option.map_some]

/-- A hexadecimal number that is printed without its mark is read back only if it is a single
decimal digit. -/
theorem strtoul_numeral_iff (x : Word) : strtoul (numeral 16 1 x.toNat) = x ↔ x.toNat < 10 := by
  have hsmall : ∀ n < 10, strtoul (numeral 16 1 n) = BitVec.ofNat 64 n := by decide +kernel
  constructor
  · intro heq
    by_contra hlarge
    rw [not_lt] at hlarge
    have hne : x.toNat ≠ 0 := by omega
    obtain ⟨c, hhead, hc, hzero⟩ := head_numeral hne
    have hfront : ∀ c ∈ (numeral 16 1 x.toNat).head?, isDigitOf 16 c = true := by
      rw [hhead]
      rintro c ⟨⟩
      exact hc
    obtain ⟨hdrop, hskip, hminus⟩ := front_eq hfront
    have hnomark : (numeral 16 1 x.toNat).take 2 ∉ hexMarks := by
      intro hmark
      obtain ⟨letter, htake, -⟩ := mark_eq hmark
      have hfirst : ((numeral 16 1 x.toNat).take 2).head? = some c := by
        rw [List.head?_take, if_neg (by decide), hhead]
      rw [htake] at hfirst
      exact hzero (Option.some.inj hfirst).symm
    obtain ⟨i, hdecimal, hvalue⟩ := numeralValue_takeWhile x.toNat hne
    have hlt := ofDigits_drop_lt (by decide) (by decide) (by decide) hlarge i hdecimal
    have hx := x.isLt
    simp only [strtoul, hdrop, hskip, hminus, decide_false] at heq
    rw [if_neg hnomark, if_neg (by rwa [hhead, Option.some.injEq]), hvalue, toUnsignedLong,
      if_neg (by omega), if_neg (by decide)] at heq
    have htoNat := congrArg BitVec.toNat heq
    rw [BitVec.toNat_ofNat, Nat.mod_eq_of_lt (by omega)] at htoNat
    omega
  · intro hlt
    rw [hsmall _ hlt, BitVec.ofNat_toNat, BitVec.setWidth_eq]

end Cs342.Library
