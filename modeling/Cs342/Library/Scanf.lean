import Mathlib.Data.List.TakeWhile
import Mathlib.Data.Nat.Digits.Lemmas
import Cs342.Library.Words

/-!
# Numerals and sscanf

`sscanf` goes through a string as its format says and stops at the first directive that finds
nothing it could convert. A number may have blanks, a sign and, if it is hexadecimal, the mark
`0x` in front of its digits; a mark without digits is read as its zero. A word is copied to an
array with its terminating zero, whether there is room for it or not.
-/

namespace Cs342.Library

/-! ## Digits -/

/-- What a digit stands for; 16 if it is none. -/
def digitValue (c : Byte) : ℕ :=
  if 48 ≤ c.val ∧ c.val ≤ 57 then c.val - 48
  else if 97 ≤ c.val ∧ c.val ≤ 102 then c.val - 87
  else if 65 ≤ c.val ∧ c.val ≤ 70 then c.val - 55
  else 16

def isDigitOf (base : ℕ) (c : Byte) : Bool := digitValue c < base

/-- The number that a row of digits stands for. -/
def numeralValue (base : ℕ) (digits : CString) : ℕ :=
  Nat.ofDigits base (digits.reverse.map digitValue)

def digitOf (d : ℕ) : Byte := if d < 10 then byte (48 + d) else byte (87 + d)

/-- A number with at least so many digits. -/
def numeral (base width n : ℕ) : CString :=
  (((Nat.digits base n).rightpad width 0).map digitOf).reverse

theorem digitValue_digitOf {d : ℕ} (h : d < 16) : digitValue (digitOf d) = d := by
  have hall : ∀ d < 16, digitValue (digitOf d) = d := by decide
  exact hall d h

theorem lt_of_mem_rightpad {base width n d : ℕ} (hbase : 1 < base)
    (h : d ∈ (Nat.digits base n).rightpad width 0) : d < base := by
  rcases List.mem_append.mp h with h | h
  · exact Nat.digits_lt_base hbase h
  · rw [List.eq_of_mem_replicate h]
    omega

theorem isDigitOf_of_mem_numeral {base width n : ℕ} (hbase : 1 < base) (hbase' : base ≤ 16)
    {c : Byte} (h : c ∈ numeral base width n) : isDigitOf base c = true := by
  obtain ⟨d, hd, rfl⟩ := List.mem_map.mp (List.mem_reverse.mp h)
  have hlt := lt_of_mem_rightpad hbase hd
  rw [isDigitOf, digitValue_digitOf (hlt.trans_le hbase')]
  exact decide_eq_true hlt

theorem numeralValue_numeral {base : ℕ} (hbase : 1 < base) (hbase' : base ≤ 16) (width n : ℕ) :
    numeralValue base (numeral base width n) = n := by
  have hdigits : ((Nat.digits base n).rightpad width 0).map (digitValue ∘ digitOf) =
      (Nat.digits base n).rightpad width 0 := by
    refine (List.map_congr_left fun d hd => ?_).trans (List.map_id _)
    exact digitValue_digitOf ((lt_of_mem_rightpad hbase hd).trans_le hbase')
  rw [numeralValue, numeral, List.reverse_reverse, List.map_map, hdigits, List.rightpad,
    Nat.ofDigits_append_replicate_zero, Nat.ofDigits_digits]

theorem le_length_numeral (base width n : ℕ) : width ≤ (numeral base width n).length := by
  rw [numeral, List.length_reverse, List.length_map, List.length_rightpad]
  exact le_max_left _ _

theorem length_numeral_le {base width n k : ℕ} (hbase : 1 < base) (hwidth : width ≤ k)
    (hn : n < base ^ k) : (numeral base width n).length ≤ k := by
  have hdigits := (Nat.digits_length_le_iff hbase n).mpr hn
  rw [numeral, List.length_reverse, List.length_map, List.length_rightpad]
  exact max_le hwidth hdigits

/-! ## Reading a number -/

/-- White space in the C locale. -/
def isSpace (c : Byte) : Bool := c.val = 32 ∨ 9 ≤ c.val ∧ c.val ≤ 13

def minus : Byte := byte 45

def plus : Byte := byte 43

/-- `0x` and `0X`. -/
def hexMarks : List CString := [[byte 48, byte 120], [byte 48, byte 88]]

def skipSign (s : CString) : CString :=
  if s.head? = some minus ∨ s.head? = some plus then s.drop 1 else s

/-- The zero of a mark counts as a digit, and its letter is passed over. -/
def skipMark (s : CString) : CString :=
  if hexMarks.contains (s.take 2) then byte 48 :: s.drop 2 else s

/-- The digits at the front, and what is behind them. -/
def scanDigits (base : ℕ) (s : CString) : Option (CString × CString) :=
  match s.takeWhile (isDigitOf base) with
  | [] => none
  | d :: digits => some (d :: digits, s.dropWhile (isDigitOf base))

/-- The `unsigned long` of the value, or the largest one. -/
def toUnsignedLong (negative : Bool) (n : ℕ) : Word :=
  if 2 ^ 64 ≤ n then BitVec.allOnes 64
  else if negative then -BitVec.ofNat 64 n
  else BitVec.ofNat 64 n

/-- The `long` of the value, or the one that is closest to it. -/
def toLong (negative : Bool) (n : ℕ) : Word :=
  BitVec.ofInt 64 (if negative then max (-n) (-2 ^ 63) else min n (2 ^ 63 - 1))

/-- `%lx`. -/
def scanHex (s : CString) : Option (Word × CString) :=
  let s := s.dropWhile isSpace
  (scanDigits 16 (skipMark (skipSign s))).map fun (digits, rest) =>
    (toUnsignedLong (s.head? = some minus) (numeralValue 16 digits), rest)

/-- `%ld`. -/
def scanDecimal (s : CString) : Option (Word × CString) :=
  let s := s.dropWhile isSpace
  (scanDigits 10 (skipSign s)).map fun (digits, rest) =>
    (toLong (s.head? = some minus) (numeralValue 10 digits), rest)

/-! ## sscanf -/

inductive Directive where
  | blank
  | literal (c : Byte)
  | hex
  | decimal
  | word (size : ℕ)

/-- What is stored for a conversion. -/
inductive Scanned where
  | number (x : Word)
  | word (s : CString)
  deriving DecidableEq

/-- What is stored, in order. There is no result where a word does not fit in its array. -/
def sscanf : List Directive → CString → Option (List Scanned)
  | [], _ => some []
  | .blank :: format, s => sscanf format (s.dropWhile isSpace)
  | .literal c :: format, s => if s.head? = some c then sscanf format (s.drop 1) else some []
  | .hex :: format, s =>
    match scanHex s with
    | none => some []
    | some (x, s) => (sscanf format s).map (.number x :: ·)
  | .decimal :: format, s =>
    match scanDecimal s with
    | none => some []
    | some (x, s) => (sscanf format s).map (.number x :: ·)
  | .word size :: format, s =>
    let s := s.dropWhile isSpace
    let w := s.takeWhile (!isSpace ·)
    if w = [] then some []
    else if w.length < size then (sscanf format (s.drop w.length)).map (.word w :: ·)
    else none

/-- Numbers always fit. -/
theorem sscanf_isSome {format : List Directive} (h : ∀ size, .word size ∉ format) (s : CString) :
    (sscanf format s).isSome = true := by
  fun_induction sscanf format s with
  | case11 => exact absurd List.mem_cons_self (h _)
  | _ => simp_all

/-! ## What a hexadecimal number looks like -/

/-- The string begins with a number of this value: blanks, a sign and a mark, which may all be
missing, and then digits, up to the first byte that is none. There is a mark or a digit. -/
def HexNumber (s : CString) (x : Word) (rest : CString) : Prop :=
  ∃ blanks sign mark digits : CString, s = blanks ++ (sign ++ (mark ++ (digits ++ rest))) ∧
    (∀ c ∈ blanks, isSpace c = true) ∧ sign ∈ [[], [plus], [minus]] ∧
    (mark ∈ hexMarks ∨ mark = [] ∧ digits ≠ [] ∧ (digits ++ rest).take 2 ∉ hexMarks) ∧
    (∀ c ∈ digits, isDigitOf 16 c = true) ∧
    (∀ c ∈ rest.head?, isDigitOf 16 c = false) ∧
    x = toUnsignedLong (sign = [minus]) (numeralValue 16 digits)

variable {s rest digits : CString} {x : Word}

/-- A prefix of elements that are all taken, in front of one that is not. -/
theorem takeWhile_append_eq {α : Type*} {p : α → Bool} {l m : List α} (hl : ∀ a ∈ l, p a = true)
    (hm : ∀ a ∈ m.head?, p a = false) :
    (l ++ m).takeWhile p = l ∧ (l ++ m).dropWhile p = m := by
  rw [List.takeWhile_append_of_pos hl, List.dropWhile_append_of_pos hl]
  cases m with
  | nil => simp
  | cons a m =>
    have ha : p a = false := hm a rfl
    simp [ha]

theorem scanDigits_eq_some_iff {base : ℕ} : scanDigits base s = some (digits, rest) ↔
    s = digits ++ rest ∧ digits ≠ [] ∧ (∀ c ∈ digits, isDigitOf base c = true) ∧
      ∀ c ∈ rest.head?, isDigitOf base c = false := by
  constructor
  · intro h
    have hdigits : s.takeWhile (isDigitOf base) = digits ∧ digits ≠ [] ∧
        s.dropWhile (isDigitOf base) = rest := by
      unfold scanDigits at h
      split at h
      · cases h
      · next d ds hds =>
        simp only [Option.some.injEq, Prod.mk.injEq] at h
        obtain ⟨rfl, rfl⟩ := h
        exact ⟨hds, List.cons_ne_nil _ _, rfl⟩
    obtain ⟨rfl, hne, rfl⟩ := hdigits
    refine ⟨List.takeWhile_append_dropWhile.symm, hne, fun c hc => List.mem_takeWhile_imp hc, ?_⟩
    intro c hc
    have := List.head?_dropWhile_not (isDigitOf base) s
    simpa [Option.mem_def.mp hc] using this
  · rintro ⟨rfl, hne, hdigits, hrest⟩
    obtain ⟨htake, hdrop⟩ := takeWhile_append_eq hdigits hrest
    obtain ⟨d, ds, rfl⟩ := List.exists_cons_of_ne_nil hne
    simp only [scanDigits, htake, hdrop]

theorem skipSign_spec (s : CString) : ∃ sign ∈ [[], [plus], [minus]], s = sign ++ skipSign s ∧
    (s.head? = some minus ↔ sign = [minus]) := by
  cases s with
  | nil => exact ⟨[], by simp, rfl, by simp⟩
  | cons c s =>
    by_cases hminus : c = minus
    · exact ⟨[minus], by simp, by simp [skipSign, hminus], by simp [hminus]⟩
    · by_cases hplus : c = plus
      · exact ⟨[plus], by simp, by simp [skipSign, hplus], by simp [hplus]⟩
      · exact ⟨[], by simp, by simp [skipSign, hminus, hplus], by simp [hminus]⟩

theorem skipMark_spec (s : CString) :
    (∃ mark ∈ hexMarks, ∃ tail, s = mark ++ tail ∧ skipMark s = byte 48 :: tail) ∨
      s.take 2 ∉ hexMarks ∧ skipMark s = s := by
  by_cases hmark : s.take 2 ∈ hexMarks
  · exact .inl ⟨s.take 2, hmark, s.drop 2, by simp, by simp [skipMark, hmark]⟩
  · exact .inr ⟨hmark, by simp [skipMark, hmark]⟩

theorem skipSign_append {sign : CString} (hsign : sign ∈ [[], [plus], [minus]])
    (hs : ∀ c ∈ s.head?, c ≠ plus ∧ c ≠ minus) :
    skipSign (sign ++ s) = s ∧ ((sign ++ s).head? = some minus ↔ sign = [minus]) := by
  have hcases : sign = [] ∨ sign = [plus] ∨ sign = [minus] := by simpa using hsign
  rcases hcases with rfl | rfl | rfl
  · cases s with
    | nil => simp [skipSign]
    | cons c s =>
      obtain ⟨hplus, hminus⟩ := hs c rfl
      simp [skipSign, hplus, hminus]
  · simp [skipSign]
  · simp [skipSign]

/-- A digit and a letter that is none. -/
theorem mark_eq {mark : CString} (h : mark ∈ hexMarks) :
    ∃ x, mark = [byte 48, x] ∧ isDigitOf 16 x = false := by
  have hcases : mark = [byte 48, byte 120] ∨ mark = [byte 48, byte 88] := by
    simpa [hexMarks] using h
  rcases hcases with rfl | rfl
  · exact ⟨_, rfl, by decide⟩
  · exact ⟨_, rfl, by decide⟩

theorem skipMark_append {mark : CString} (hmark : mark ∈ hexMarks) :
    skipMark (mark ++ s) = byte 48 :: s := by
  obtain ⟨x, rfl, -⟩ := mark_eq hmark
  simp [skipMark, hmark]

/-- The zero of a mark adds nothing. -/
theorem numeralValue_zero_cons (base : ℕ) (digits : CString) :
    numeralValue base (byte 48 :: digits) = numeralValue base digits := by
  have hzero : digitValue (byte 48) = 0 := by decide
  simp [numeralValue, Nat.ofDigits_append, hzero]

/-- What is found behind the sign of a number. -/
theorem scanDigits_skipMark {mark : CString}
    (hmark : mark ∈ hexMarks ∨ mark = [] ∧ digits ≠ [] ∧ (digits ++ rest).take 2 ∉ hexMarks)
    (hall : ∀ c ∈ digits, isDigitOf 16 c = true)
    (hend : ∀ c ∈ rest.head?, isDigitOf 16 c = false) :
    ∃ found, scanDigits 16 (skipMark (mark ++ (digits ++ rest))) = some (found, rest) ∧
      numeralValue 16 found = numeralValue 16 digits := by
  rcases hmark with hmark | ⟨rfl, hne, hnone⟩
  · refine ⟨byte 48 :: digits, ?_, numeralValue_zero_cons 16 digits⟩
    have hzero : isDigitOf 16 (byte 48) = true := by decide
    rw [skipMark_append hmark, ← List.cons_append]
    exact scanDigits_eq_some_iff.mpr ⟨rfl, by simp, by simpa [hzero] using hall, hend⟩
  · refine ⟨digits, ?_, rfl⟩
    rw [List.nil_append, (by simp [skipMark, hnone] : skipMark (digits ++ rest) = digits ++ rest)]
    exact scanDigits_eq_some_iff.mpr ⟨rfl, hne, hall, hend⟩

/-- With or without a mark, a number begins with a digit. -/
theorem head_isDigitOf {mark : CString} (hmark : mark ∈ hexMarks ∨ mark = [] ∧ digits ≠ [])
    (hall : ∀ c ∈ digits, isDigitOf 16 c = true) :
    ∀ c ∈ (mark ++ (digits ++ rest)).head?, isDigitOf 16 c = true := by
  rcases hmark with hmark | ⟨rfl, hne⟩
  · obtain ⟨x, rfl, -⟩ := mark_eq hmark
    rintro c ⟨⟩
    decide
  · obtain ⟨d, ds, rfl⟩ := List.exists_cons_of_ne_nil hne
    rintro c ⟨⟩
    exact hall d List.mem_cons_self

/-- Neither a sign nor a blank is a digit. -/
theorem not_digit :
    ∀ c : Byte, isDigitOf 16 c = true → c ≠ plus ∧ c ≠ minus ∧ isSpace c = false := by
  decide +kernel

theorem hexNumber_of_scanHex (h : scanHex s = some (x, rest)) : HexNumber s x rest := by
  simp only [scanHex, Option.map_eq_some_iff, Prod.mk.injEq] at h
  obtain ⟨⟨digits, rest'⟩, hdigits, rfl, rfl⟩ := h
  obtain ⟨sign, hsign, hs, hminus⟩ := skipSign_spec (s.dropWhile isSpace)
  obtain ⟨hd, hne, hall, hend⟩ := scanDigits_eq_some_iff.mp hdigits
  have hblanks : ∀ c ∈ s.takeWhile isSpace, isSpace c = true := fun c hc =>
    List.mem_takeWhile_imp hc
  have hsplit : s = s.takeWhile isSpace ++ (sign ++ skipSign (s.dropWhile isSpace)) := by
    rw [← hs, List.takeWhile_append_dropWhile]
  rw [decide_eq_decide.mpr hminus]
  rcases skipMark_spec (skipSign (s.dropWhile isSpace)) with ⟨mark, hmark, tail, hm, hskip⟩ |
    ⟨hnone, hskip⟩
  · obtain ⟨d, ds, rfl⟩ := List.exists_cons_of_ne_nil hne
    obtain ⟨rfl, rfl⟩ : byte 48 = d ∧ tail = ds ++ rest' := by simpa [hskip] using hd
    refine ⟨s.takeWhile isSpace, sign, mark, ds, ?_, hblanks, hsign, .inl hmark,
      fun c hc => hall c (List.mem_cons_of_mem _ hc), hend, ?_⟩
    · rwa [← hm]
    · rw [numeralValue_zero_cons]
  · rw [hskip] at hd
    refine ⟨s.takeWhile isSpace, sign, [], digits, ?_, hblanks, hsign, .inr ⟨rfl, hne, ?_⟩, hall,
      hend, rfl⟩
    · rwa [List.nil_append, ← hd]
    · rwa [← hd]

theorem scanHex_of_hexNumber (h : HexNumber s x rest) : scanHex s = some (x, rest) := by
  obtain ⟨blanks, sign, mark, digits, rfl, hblanks, hsign, hmark, hall, hend, rfl⟩ := h
  have hdigit : ∀ c ∈ (mark ++ (digits ++ rest)).head?, isDigitOf 16 c = true :=
    head_isDigitOf (hmark.imp_right fun h => ⟨h.1, h.2.1⟩) hall
  have hfront : ∀ c ∈ (mark ++ (digits ++ rest)).head?, c ≠ plus ∧ c ≠ minus := fun c hc =>
    ⟨(not_digit c (hdigit c hc)).1, (not_digit c (hdigit c hc)).2.1⟩
  have hsigns : sign = [] ∨ sign = [plus] ∨ sign = [minus] := by simpa using hsign
  have hblank : ∀ c ∈ (sign ++ (mark ++ (digits ++ rest))).head?, isSpace c = false := by
    intro c hc
    rcases hsigns with rfl | rfl | rfl
    · exact (not_digit c (hdigit c hc)).2.2
    · cases hc
      decide
    · cases hc
      decide
  have hdrop := (takeWhile_append_eq hblanks hblank).2
  obtain ⟨hskip, hnegative⟩ := skipSign_append hsign hfront
  obtain ⟨found, hdigits, hvalue⟩ := scanDigits_skipMark hmark hall hend
  simp only [scanHex, hdrop, hskip, hdigits, Option.map_some, hvalue,
    decide_eq_decide.mpr hnegative]

/-- `%lx` finds a number exactly where the string begins with one. -/
theorem scanHex_eq_some_iff : scanHex s = some (x, rest) ↔ HexNumber s x rest :=
  ⟨hexNumber_of_scanHex, scanHex_of_hexNumber⟩

theorem HexNumber.unique {y : Word} {rest' : CString} (h : HexNumber s x rest)
    (h' : HexNumber s y rest') : x = y ∧ rest = rest' := by
  have hsame := (scanHex_eq_some_iff.mpr h).symm.trans (scanHex_eq_some_iff.mpr h')
  simpa using hsame

/-- A number as it is printed is read back. -/
theorem scanHex_numeral {width : ℕ} (hwidth : 2 ≤ width)
    (hrest : ∀ c ∈ rest.head?, isDigitOf 16 c = false) :
    scanHex (numeral 16 width x.toNat ++ rest) = some (x, rest) := by
  have hall : ∀ c ∈ numeral 16 width x.toNat, isDigitOf 16 c = true := fun c hc =>
    isDigitOf_of_mem_numeral (by decide) le_rfl hc
  have hlength := le_length_numeral 16 width x.toNat
  have hvalue := numeralValue_numeral (show 1 < 16 by decide) le_rfl width x.toNat
  refine scanHex_eq_some_iff.mpr ⟨[], [], [], numeral 16 width x.toNat, rfl, by simp, by simp,
    .inr ⟨rfl, ?_, ?_⟩, hall, hrest, ?_⟩
  · exact List.ne_nil_of_length_pos (by omega)
  · rw [List.take_append_of_le_length (by omega)]
    intro hmark
    have hsecond : ∀ c ∈ (numeral 16 width x.toNat).take 2, isDigitOf 16 c = true :=
      fun c hc => hall c (List.mem_of_mem_take hc)
    obtain ⟨c, heq, hc⟩ := mark_eq hmark
    rw [hsecond c (by simp [heq])] at hc
    cases hc
  · have hx : ¬ 2 ^ 64 ≤ x.toNat := by
      have := x.isLt
      omega
    rw [hvalue, toUnsignedLong, if_neg hx]
    simp

end Cs342.Library
