import Cs342.Library.Strtoul
import Cs342.MemUtils.FreeFrames
import Cs342.MemUtils.MapsText

/-!
# The flags of a frame

`frame_info` prints the names of the flags, a line with their numbers, and a line with the frame's
number and its 26 flags, each in three columns. That line can be read back by a program, whatever
the frame. For a reader, who looks for a flag below its number, it is in line with the one above
only if the number of the frame has no more than nine digits.
-/

namespace Cs342.MemUtils

open Library

def kpageflags : List CString :=
  ["LOCKED", "ERROR", "REFERENCED", "UPTODATE", "DIRTY", "LRU", "ACTIVE", "SLAB", "WRITEBACK",
    "RECLAIM", "BUDDY", "MMAP", "ANON", "SWAPCACHE", "SWAPBACKED", "COMPOUND_HEAD",
    "COMPOUND_TAIL", "HUGE", "UNEVICTABLE", "HWPOISON", "NOPAGE", "KSM", "THP", "BALLOON",
    "ZERO_PAGE", "IDLE"].map ascii

/-- `%-*s`. -/
def leftText (width : ℕ) (s : CString) : CString := s.rightpad width space

/-- `%#0*lx`; there is no mark in front of zero. -/
def markedText (width : ℕ) (x : Word) : CString :=
  if x = 0 then numeral 16 width 0 else hexText (width - 2) x

namespace FrameInfo

def legend : CString :=
  ((List.range 26).zip kpageflags).flatMap (fun (i, name) =>
    numeral 10 2 i ++ ascii ". " ++ leftText 15 name ++ [space] ++
      if (i + 1) % 5 = 0 then ascii "\n" else []) ++ ascii "\n\n"

def header : CString :=
  leftText 12 (ascii "FRAME#") ++ (List.range 26).flatMap (fun i => numeral 10 2 i ++ [space]) ++
    ascii "\n"

/-- The flags that are printed of a word. -/
def flags (value : Word) : List Word := (List.range 26).map fun i => (value >>> i) &&& 1#64

def flagText (flag : Word) : CString := space :: leftText 2 (numeral 10 1 flag.toNat)

def row (pfn value : Word) : CString :=
  markedText 11 pfn ++ space :: ((flags value).flatMap flagText ++ ascii "\n")

end FrameInfo

open FrameInfo in
/-- `kpf` is `/proc/kpageflags`, if it could be opened. -/
def frameInfo (kpf : Option File) (pfn : Word) : List CString :=
  match kpf with
  | none => [ascii "Error opening /proc/kpageflags\n", ascii "You probably forgot sudo\n"]
  | some kpageflags =>
    let offset := pfn * 8
    match kpageflags.read offset.toNat with
    | .error _ =>
      [ascii "Error reading from /proc/kpageflags\n",
        ascii "PFN " ++ numeral 10 1 pfn.toNat ++ ascii " is invalid\n"]
    | .ok value => [legend, header, row pfn value]

/-! ## Reading the line back -/

namespace FrameInfo

variable {rest : CString} {x : Word}

/-- A number without a sign is read back, whatever blanks are in front. -/
theorem scanDecimal_numeral {blanks : CString} (hblanks : ∀ c ∈ blanks, isSpace c = true)
    (hx : x.toNat < 2 ^ 63) (hrest : ∀ c ∈ rest.head?, isDigitOf 10 c = false) :
    scanDecimal (blanks ++ (numeral 10 1 x.toNat ++ rest)) = some (x, rest) := by
  have hall : ∀ c ∈ numeral 10 1 x.toNat, isDigitOf 10 c = true := fun c hc =>
    isDigitOf_of_mem_numeral (by decide) (by decide) hc
  have hne : numeral 10 1 x.toNat ≠ [] := List.ne_nil_of_length_pos (le_length_numeral 10 1 _)
  have hfront : ∀ c ∈ (numeral 10 1 x.toNat ++ rest).head?, isDigitOf 16 c = true := by
    rw [List.head?_append_of_ne_nil _ hne]
    intro c hc
    have hdigit : digitValue c < 10 := of_decide_eq_true (hall c (List.mem_of_mem_head? hc))
    exact decide_eq_true (hdigit.trans (by decide))
  obtain ⟨-, hskip, hminus⟩ := front_eq hfront
  have hdrop := (takeWhile_append_eq hblanks fun c hc => (not_digit c (hfront c hc)).2.2).2
  have hdigits := scanDigits_eq_some_iff.mpr ⟨rfl, hne, hall, hrest⟩
  have hvalue := numeralValue_numeral (show 1 < 10 by decide) (by decide) 1 x.toNat
  have hlong : toLong false x.toNat = x := by
    have hmin : min (x.toNat : ℤ) (2 ^ 63 - 1) = x.toNat := min_eq_left (by omega)
    rw [toLong, if_neg (by decide), hmin, BitVec.ofInt_natCast, BitVec.ofNat_toNat,
      BitVec.setWidth_eq]
  simp only [scanDecimal, hdrop, hskip, hminus, hdigits, Option.map_some, hvalue, decide_false,
    hlong]

theorem isSpace_space : isSpace space = true := by decide

theorem not_isDigitOf_space : isDigitOf 16 space = false := by decide

/-- A frame's number is read back, with its mark or without. -/
theorem scanHex_markedText (hrest : ∀ c ∈ rest.head?, isDigitOf 16 c = false) :
    scanHex (markedText 11 x ++ rest) = some (x, rest) := by
  by_cases hx : x = 0
  · rw [markedText, if_pos hx]
    have hzero := scanHex_numeral (x := 0) (show 2 ≤ 11 by decide) hrest
    rw [hx]
    exact hzero
  · have hall : ∀ c ∈ numeral 16 9 x.toNat, isDigitOf 16 c = true := fun c hc =>
      isDigitOf_of_mem_numeral (by decide) le_rfl hc
    have hvalue := numeralValue_numeral (show 1 < 16 by decide) le_rfl 9 x.toNat
    rw [markedText, if_neg hx, hexText, List.append_assoc]
    refine scanHex_eq_some_iff.mpr ⟨[], [], ascii "0x", numeral 16 9 x.toNat, rfl, by simp, by simp,
      .inl (by decide), hall, hrest, ?_⟩
    rw [hvalue]
    exact (toUnsignedLong_toNat x).symm

/-- A flag is a single digit with a blank on each side. -/
theorem flagText_eq {flag : Word} (h : flag.toNat < 10) :
    flagText flag = [space, digitOf flag.toNat, space] := by
  have hall : ∀ n < 10, leftText 2 (numeral 10 1 n) = [digitOf n, space] := by decide +kernel
  rw [flagText, hall _ h]

theorem lt_of_mem_flags {value flag : Word} (h : flag ∈ flags value) : flag.toNat < 10 := by
  obtain ⟨i, -, rfl⟩ := List.mem_map.mp h
  have hone : (1#64).toNat = 1 := rfl
  rw [BitVec.toNat_and, hone]
  exact lt_of_le_of_lt Nat.and_le_right (by decide)

/-- Flags are read back one after the other. -/
theorem sscanf_flags {l : List Word} (hl : ∀ flag ∈ l, flag.toNat < 10) (rest : CString) :
    sscanf (List.replicate l.length .decimal) (space :: (l.flatMap flagText ++ rest)) =
      some (l.map .number) := by
  induction l with
  | nil => rfl
  | cons flag l ih =>
    have hsmall := hl flag List.mem_cons_self
    have htext : space :: ((flag :: l).flatMap flagText ++ rest) = [space, space] ++
        (numeral 10 1 flag.toNat ++ space :: (l.flatMap flagText ++ rest)) := by
      have hall : ∀ n < 10, numeral 10 1 n = [digitOf n] := by decide +kernel
      rw [List.flatMap_cons, flagText_eq hsmall, hall _ hsmall]
      rfl
    have hscan : scanDecimal (space :: ((flag :: l).flatMap flagText ++ rest)) =
        some (flag, space :: (l.flatMap flagText ++ rest)) := by
      rw [htext]
      refine scanDecimal_numeral (by simpa using isSpace_space) (by omega) ?_
      rintro c ⟨⟩
      decide
    have hrest := ih fun b hb => hl b (List.mem_cons_of_mem _ hb)
    rw [List.length_cons, List.replicate_succ, sscanf, hscan]
    simp only [hrest, Option.map_some, List.map_cons]

/-- What stands below the number of a flag. -/
def column (line : CString) (i : ℕ) : CString := (line.drop (12 + 3 * i)).take 3

/-- The numbers of the flags are on three columns each. -/
theorem column_header : ∀ i < 26, column header i = numeral 10 2 i ++ [space] := by decide +kernel

/-- The blocks of a text of which each has the same length. -/
theorem block_flatMap {α : Type*} {f : α → CString} {k : ℕ} {l : List α}
    (h : ∀ x ∈ l, (f x).length = k) (rest : CString) {i : ℕ} (hi : i < l.length) :
    ((l.flatMap f ++ rest).drop (k * i)).take k = f l[i] := by
  induction l generalizing i with
  | nil => cases hi
  | cons x l ih =>
    have hx := h x List.mem_cons_self
    rw [List.flatMap_cons, List.append_assoc]
    cases i with
    | zero => rw [Nat.mul_zero, List.drop_zero, List.take_left' hx, List.getElem_cons_zero]
    | succ i =>
      rw [Nat.mul_succ, Nat.add_comm, ← List.drop_drop, List.drop_left' hx, List.getElem_cons_succ]
      exact ih (fun y hy => h y (List.mem_cons_of_mem _ hy)) (Nat.lt_of_succ_lt_succ hi)

/-- A frame's number takes eleven columns unless it has more than nine digits. -/
theorem length_markedText {x : Word} (hx : x.toNat < 2 ^ 36) : (markedText 11 x).length = 11 := by
  rw [markedText]
  split_ifs
  · exact le_antisymm (length_numeral_le (by decide) le_rfl (by decide)) (le_length_numeral _ _ _)
  · have hle : (numeral 16 (11 - 2) x.toNat).length ≤ 9 :=
      length_numeral_le (by decide) le_rfl (hx.trans_eq (by decide))
    have hge := le_length_numeral 16 (11 - 2) x.toNat
    have hmark : (ascii "0x").length = 2 := rfl
    rw [hexText, List.length_append, hmark]
    omega

/-- The columns of the flags, for a short number. -/
theorem column_row {pfn : Word} (hpfn : pfn.toNat < 2 ^ 36) (value : Word) {i : ℕ} (hi : i < 26) :
    column (row pfn value) i = flagText ((value >>> i) &&& 1#64) := by
  have hfront : (markedText 11 pfn ++ [space]).length = 12 := by
    rw [List.length_append, length_markedText hpfn]
    rfl
  have hblock : ∀ flag ∈ flags value, (flagText flag).length = 3 := fun flag hflag => by
    rw [flagText_eq (lt_of_mem_flags hflag)]
    rfl
  have hlength : (flags value).length = 26 := by
    rw [flags, List.length_map, List.length_range]
  have hrow : row pfn value =
      (markedText 11 pfn ++ [space]) ++ ((flags value).flatMap flagText ++ ascii "\n") := by
    rw [row, List.append_assoc]
    rfl
  rw [column, hrow, ← List.drop_drop, List.drop_left' hfront,
    block_flatMap hblock _ (hlength.symm ▸ hi)]
  simp only [flags, List.getElem_map, List.getElem_range]

/-- A longer number moves the flags to the right. -/
theorem column_row_ne {pfn : Word} (hpfn : 2 ^ 36 ≤ pfn.toNat) (value : Word) :
    column (row pfn value) 0 ≠ flagText ((value >>> 0) &&& 1#64) := by
  have hzero : pfn ≠ 0 := by
    rintro rfl
    exact absurd hpfn (by decide)
  have hflag : (value >>> 0) &&& 1#64 ∈ flags value :=
    List.mem_map.mpr ⟨0, List.mem_range.mpr (by decide), rfl⟩
  have hlt := lt_of_mem_flags hflag
  have hdigits : ∀ n < 10, digitOf n ≠ space := by decide
  intro heq
  rw [flagText_eq hlt] at heq
  have hfirst : (row pfn value)[12]? = some space := by
    have hhead := congrArg (·[0]?) heq
    simpa [column, List.getElem?_take, List.getElem?_drop] using hhead
  have hsecond : (row pfn value)[13]? = some (digitOf ((value >>> 0) &&& 1#64).toNat) := by
    have hnext := congrArg (·[1]?) heq
    simpa [column, List.getElem?_take, List.getElem?_drop] using hnext
  have hlong : 9 < (numeral 16 (11 - 2) pfn.toNat).length := by
    have hcount := (Nat.lt_digits_length_iff (k := 9) (show 1 < 16 by decide) pfn.toNat).mpr
      (le_trans (by decide) hpfn)
    rw [numeral, List.length_reverse, List.length_map, List.length_rightpad]
    exact lt_max_of_lt_right hcount
  have hmark : (ascii "0x").length = 2 := rfl
  rw [row, markedText, if_neg hzero, hexText, List.append_assoc,
    List.getElem?_append_right (by omega), hmark] at hfirst hsecond
  by_cases hten : (numeral 16 (11 - 2) pfn.toNat).length = 10
  · -- the second byte is the blank in front of the first flag
    rw [List.getElem?_append_right (by omega), hten] at hsecond
    exact hdigits _ hlt (Option.some.inj hsecond).symm
  · -- the first byte is a digit of the frame's number
    rw [List.getElem?_append_left (by omega)] at hfirst
    have hdigit := isDigitOf_of_mem_numeral (by decide) le_rfl (List.mem_of_getElem? hfirst)
    rw [not_isDigitOf_space] at hdigit
    cases hdigit

end FrameInfo

open FrameInfo in
/-- The line of a frame can be read back: it gives the frame and the lowest 26 bits of its word.
Each flag stands below its number exactly when the number of the frame has at most nine digits. -/
theorem frame_info_row (kpageflags : File) (pfn : Word) (h : FrameValid kpageflags pfn) :
    let value := kpageflags.bytes.uint64 (pfn * 8).toNat
    ∃ line, frameInfo (some kpageflags) pfn = [legend, header, line] ∧
      sscanf (.hex :: List.replicate 26 .decimal) line =
        some (.number pfn :: (List.range 26).map fun i => .number ((value >>> i) &&& 1#64)) ∧
      (∀ i < 26, column header i = numeral 10 2 i ++ [space]) ∧
      ((∀ i < 26, column line i = flagText ((value >>> i) &&& 1#64)) ↔ pfn.toNat < 2 ^ 36) := by
  intro value
  have hread : kpageflags.read (pfn * 8).toNat = .ok value := by
    rw [File.read, h]
  refine ⟨row pfn value, by simp only [frameInfo, hread], ?_, column_header, ?_, ?_⟩
  · have hlength : (flags value).length = 26 := by
      rw [flags, List.length_map, List.length_range]
    have hscan : scanHex (row pfn value) =
        some (pfn, space :: ((flags value).flatMap flagText ++ ascii "\n")) :=
      scanHex_markedText (by rintro c ⟨⟩; exact not_isDigitOf_space)
    have hflags := sscanf_flags (l := flags value) (fun _ hflag => lt_of_mem_flags hflag)
      (ascii "\n")
    rw [hlength] at hflags
    rw [sscanf, hscan]
    simp only [hflags, Option.map_some]
    rw [flags, List.map_map]
    rfl
  · intro hcolumns
    by_contra hlarge
    exact column_row_ne (not_lt.mp hlarge) value (hcolumns 0 (by decide))
  · intro hsmall i hi
    exact column_row hsmall value hi

theorem frame_info_row_five :
    let value := frameFive.bytes.uint64 ((5 : Word) * 8).toNat
    ∃ line, frameInfo (some frameFive) 5 = [FrameInfo.legend, FrameInfo.header, line] ∧
      sscanf (.hex :: List.replicate 26 .decimal) line =
        some (.number 5 :: (List.range 26).map fun i => .number ((value >>> i) &&& 1#64)) ∧
      (∀ i < 26, FrameInfo.column FrameInfo.header i = numeral 10 2 i ++ [space]) ∧
      ((∀ i < 26, FrameInfo.column line i = FrameInfo.flagText ((value >>> i) &&& 1#64)) ↔
        (5 : Word).toNat < 2 ^ 36) :=
  frame_info_row frameFive 5 rfl

end Cs342.MemUtils
