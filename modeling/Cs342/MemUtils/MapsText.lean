import Cs342.Library.Lines
import Cs342.Library.Scanf
import Cs342.MemUtils.Counted

/-!
# The text of /proc/pid/maps

The loops of `all_table_size` and `mem_used` read the text with `fgets` and give what is in the
buffer to `sscanf`. A line that is longer than the buffer comes in pieces, and each piece is
scanned like a line. The pieces behind the first are read for nothing unless they begin with a
hexadecimal number, which a piece of a path name may well do.
-/

namespace Cs342.MemUtils

open Library

/-! ## The text -/

/-- A line as the kernel writes it. An area with no name has an empty path. -/
structure MapsLine where
  vma : Vma
  nonempty : vma.vaBegin < vma.vaEnd
  readable : Bool
  writable : Bool
  executable : Bool
  shared : Bool
  offset : ℕ
  major : ℕ
  minor : ℕ
  inode : ℕ
  path : CString
  newline_notMem : newline ∉ path
  nul_notMem : nul ∉ path

def space : Byte := byte 32

namespace MapsLine

/-- `rwxp` with `-` for what is not permitted, and `s` for a shared area. -/
def permissions (line : MapsLine) : CString :=
  [if line.readable then byte 114 else minus, if line.writable then byte 119 else minus,
    if line.executable then byte 120 else minus, if line.shared then byte 115 else byte 112]

/-- `offset major:minor inode`, with a blank behind each of the three. -/
def fields (line : MapsLine) : CString :=
  numeral 16 8 line.offset ++ space :: (numeral 16 2 line.major ++ byte 58 ::
    (numeral 16 2 line.minor ++ space :: (numeral 10 1 line.inode ++ [space])))

def header (line : MapsLine) : CString :=
  numeral 16 8 line.vma.vaBegin.toNat ++ minus :: (numeral 16 8 line.vma.vaEnd.toNat ++ space ::
    (line.permissions ++ space :: line.fields))

/-- The line without its end. The name is padded to column 73. -/
def content (line : MapsLine) : CString :=
  if line.path = [] then line.header
  else line.header ++ (List.replicate (72 - line.header.length) space ++ space :: line.path)

def text (line : MapsLine) : List Byte := line.content ++ [newline]

end MapsLine

def mapsText (lines : List MapsLine) : List Byte := lines.flatMap MapsLine.text

/-! ## The loops -/

/-- The string in a buffer. -/
def bufString (buf : List Byte) : CString := buf.takeWhile (· ≠ nul)

/-- What is in the two addresses, which are 0 before, when `sscanf` has stored this. -/
def scannedRange : List Scanned → VaRange
  | .number vaBegin :: .number vaEnd :: _ => ⟨vaBegin, vaEnd⟩
  | .number vaBegin :: _ => ⟨vaBegin, 0⟩
  | _ => ⟨0, 0⟩

/-- What is in `path`, where `unset` has been before. -/
def scannedPath (unset : CString) : List Scanned → CString
  | [_, _, _, _, _, _, .word path] => path
  | _ => unset

/-- `"%lx-%lx"` -/
def rangeFormat : List Directive := [.hex, .literal minus, .hex]

/-- `"%lx-%lx %s %ld %s %ld %s"`, with the sizes of `mode`, `dev` and `path`. -/
def mapsFormat : List Directive :=
  [.hex, .literal minus, .hex, .blank, .word 8, .blank, .decimal, .blank, .word 10, .blank,
    .decimal, .blank, .word 256]

/-- One `sscanf`; there is no result when it writes over the end of an array. -/
def scanBuf (format : List Directive) (buf : List Byte) : Option (List Scanned) :=
  sscanf format (bufString buf)

/-- The ranges that `all_table_size` goes over. -/
def tableRanges (text : List Byte) : Option (List VaRange) :=
  (pieces 355 text).mapM fun line => (scanBuf rangeFormat line).map scannedRange

def vsyscall : CString := [91, 118, 115, 121, 115, 99, 97, 108, 108, 93].map byte

/-- The first loop of `mem_used` from round `i` on. The array `path` is not initialized: `unset`
says what is in it at the beginning of each round. -/
def virtualRounds (unset : ℕ → CString) : ℕ → List (List Byte) → Option (List VaRange)
  | _, [] => some []
  | i, buf :: bufs =>
    match scanBuf mapsFormat buf with
    | none => none
    | some items =>
      if strcmp (scannedPath (unset i) items) vsyscall = 0 then some [scannedRange items]
      else (virtualRounds unset (i + 1) bufs).map (scannedRange items :: ·)

/-- The ranges that the first loop of `mem_used` goes over. -/
def virtualRanges (unset : ℕ → CString) (text : List Byte) : Option (List VaRange) :=
  virtualRounds unset 0 (pieces 363 text)

/-- The ranges that the second loop of `mem_used` goes over. -/
def physicalRanges (text : List Byte) : Option (List VaRange) :=
  (pieces 363 text).mapM fun buf => (scanBuf mapsFormat buf).map scannedRange

/-! ## What a piece gives -/

/-- The string begins with two numbers and a `-` between them. -/
def HexRange (s : CString) (a b : Word) : Prop :=
  ∃ rest rest', HexNumber s a (minus :: rest) ∧ HexNumber rest b rest'

/-- The string begins with a number, but not with two. -/
def HexAlone (s : CString) (a : Word) : Prop :=
  (∃ rest, HexNumber s a rest) ∧ ∀ a b, ¬ HexRange s a b

/-- The range that is left in the two addresses. -/
def rangeOf (s : CString) : VaRange :=
  match scanHex s with
  | none => ⟨0, 0⟩
  | some (vaBegin, rest) =>
    if rest.head? = some minus then
      match scanHex (rest.drop 1) with
      | none => ⟨vaBegin, 0⟩
      | some (vaEnd, _) => ⟨vaBegin, vaEnd⟩
    else ⟨vaBegin, 0⟩

variable {s : CString} {a b : Word}

/-- Both formats begin with a range. -/
theorem scannedRange_eq {format : List Directive} {items : List Scanned}
    (h : sscanf (.hex :: .literal minus :: .hex :: format) s = some items) :
    scannedRange items = rangeOf s := by
  simp only [sscanf] at h
  cases hbegin : scanHex s with
  | none =>
    simp only [hbegin, Option.some.injEq] at h
    rw [← h, rangeOf, hbegin]
    rfl
  | some number =>
    obtain ⟨vaBegin, rest⟩ := number
    simp only [hbegin, Option.map_eq_some_iff] at h
    obtain ⟨items, h, rfl⟩ := h
    simp only [rangeOf, hbegin]
    split_ifs at h ⊢ with hminus
    · cases hend : scanHex (rest.drop 1) with
      | none =>
        simp only [hend, Option.some.injEq] at h
        rw [← h]
        rfl
      | some number =>
        simp only [hend, Option.map_eq_some_iff] at h
        obtain ⟨items, -, rfl⟩ := h
        rfl
    · rw [← Option.some.inj h]
      rfl

theorem rangeOf_hexRange (h : HexRange s a b) : rangeOf s = ⟨a, b⟩ := by
  obtain ⟨rest, rest', hbegin, hend⟩ := h
  simp [rangeOf, scanHex_eq_some_iff.mpr hbegin, scanHex_eq_some_iff.mpr hend]

/-- Two numbers, one, or none. -/
theorem rangeOf_cases (s : CString) :
    (∃ a b, HexRange s a b) ∨ (∃ a, HexAlone s a ∧ rangeOf s = ⟨a, 0⟩) ∨
      (∀ a rest, ¬ HexNumber s a rest) ∧ rangeOf s = ⟨0, 0⟩ := by
  by_cases hrange : ∃ a b, HexRange s a b
  · exact .inl hrange
  · have hnone (a b : Word) : ¬ HexRange s a b := fun h => hrange ⟨a, b, h⟩
    refine .inr ?_
    cases hbegin : scanHex s with
    | none =>
      refine .inr ⟨fun a rest hnumber => ?_, by simp [rangeOf, hbegin]⟩
      cases hbegin.symm.trans (scanHex_eq_some_iff.mpr hnumber)
    | some number =>
      obtain ⟨vaBegin, rest⟩ := number
      have hnumber := scanHex_eq_some_iff.mp hbegin
      refine .inl ⟨vaBegin, ⟨⟨rest, hnumber⟩, hnone⟩, ?_⟩
      simp only [rangeOf, hbegin]
      split_ifs with hminus
      · obtain ⟨rest', rfl⟩ := List.head?_eq_some_iff.mp hminus
        cases hend : scanHex rest' with
        | none => simp [hend]
        | some number =>
          exact absurd ⟨rest', number.2, hnumber, scanHex_eq_some_iff.mp hend⟩ (hnone vaBegin _)
      · rfl

/-- A piece that is read for nothing. -/
theorem not_counts_iff {counts : VaRange → Prop} (hzero : ¬ counts ⟨0, 0⟩) :
    ¬ counts (rangeOf s) ↔
      (∀ a b, HexRange s a b → ¬ counts ⟨a, b⟩) ∧ ∀ a, HexAlone s a → ¬ counts ⟨a, 0⟩ := by
  rcases rangeOf_cases s with ⟨a, b, hrange⟩ | ⟨a, halone, heq⟩ | ⟨hnone, heq⟩
  · have hunique (a' b' : Word) (h : HexRange s a' b') : (⟨a', b'⟩ : VaRange) = ⟨a, b⟩ :=
      (rangeOf_hexRange h).symm.trans (rangeOf_hexRange hrange)
    rw [rangeOf_hexRange hrange]
    constructor
    · intro hnot
      exact ⟨fun a' b' h => hunique a' b' h ▸ hnot, fun a' h => absurd hrange (h.2 a b)⟩
    · exact fun h => h.1 a b hrange
  · have hunique (a' : Word) (h : HexAlone s a') : a' = a := by
      obtain ⟨⟨rest, hnumber⟩, -⟩ := halone
      obtain ⟨⟨rest', hnumber'⟩, -⟩ := h
      exact (hnumber'.unique hnumber).1
    rw [heq]
    constructor
    · intro hnot
      exact ⟨fun a' b' h => absurd h (halone.2 a' b'), fun a' h => hunique a' h ▸ hnot⟩
    · exact fun h => h.2 a halone
  · rw [heq]
    simp only [hzero, not_false_iff, true_iff]
    constructor
    · rintro a b ⟨rest, rest', hnumber, -⟩
      exact absurd hnumber (hnone a _)
    · rintro a ⟨⟨rest, hnumber⟩, -⟩
      exact absurd hnumber (hnone a rest)

theorem not_tableCounts_iff :
    ¬ TableCounts (rangeOf s) ↔ ∀ a b, HexRange s a b → b >>> 12 ≤ a >>> 12 := by
  rw [not_counts_iff (by decide), and_iff_left]
  · simp only [TableCounts, BitVec.not_lt]
  · intro a _
    have hpage : (0 : Word) >>> 12 = 0 := rfl
    rw [TableCounts, hpage, BitVec.not_lt, BitVec.le_def]
    exact Nat.zero_le _

theorem not_physicalCounts_iff :
    ¬ PhysicalCounts (rangeOf s) ↔ ∀ a b, HexRange s a b → b ≤ (a >>> 12) <<< 12 := by
  rw [not_counts_iff (by decide), and_iff_left]
  · simp only [physicalCounts_iff, BitVec.not_lt]
  · intro a _
    rw [physicalCounts_iff, BitVec.not_lt, BitVec.le_def]
    exact Nat.zero_le _

theorem not_virtualCounts_iff :
    ¬ VirtualCounts (rangeOf s) ↔
      (∀ a b, HexRange s a b → b - a < 1024) ∧ ∀ a, HexAlone s a → 0 - a < 1024 := by
  rw [not_counts_iff (by decide)]
  simp only [virtualCounts_iff, BitVec.not_le]

/-! ## The pieces of a kernel text -/

namespace MapsLine

variable (line : MapsLine)

theorem digit_ne {base width n : ℕ} (hbase : 1 < base) (hbase' : base ≤ 16) {c : Byte}
    (h : c ∈ numeral base width n) : c ≠ newline ∧ c ≠ nul := by
  have hall : ∀ c : Byte, isDigitOf 16 c = true → c ≠ newline ∧ c ≠ nul := by decide +kernel
  have hdigit := isDigitOf_of_mem_numeral hbase hbase' h
  refine hall c (decide_eq_true ?_)
  exact (of_decide_eq_true hdigit).trans_le hbase'

theorem header_ne {c : Byte} (h : c ∈ line.header) : c ≠ newline ∧ c ≠ nul := by
  have hhex {width n : ℕ} (h : c ∈ numeral 16 width n) := digit_ne (by decide) le_rfl h
  have hdec {width n : ℕ} (h : c ∈ numeral 10 width n) := digit_ne (by decide) (by decide) h
  have hpermissions : c ∈ line.permissions → c ≠ newline ∧ c ≠ nul := by
    intro h
    simp only [permissions, List.mem_cons, List.not_mem_nil, or_false] at h
    rcases h with rfl | rfl | rfl | rfl <;> split_ifs <;> decide
  simp only [header, fields, List.mem_append, List.mem_cons, List.not_mem_nil, or_false] at h
  rcases h with h | rfl | h | rfl | h | rfl | h | rfl | h | rfl | h | rfl | h | rfl
  exacts [hhex h, by decide, hhex h, by decide, hpermissions h, by decide, hhex h, by decide,
    hhex h, by decide, hhex h, by decide, hdec h, by decide]

theorem content_ne {c : Byte} (h : c ∈ line.content) : c ≠ newline ∧ c ≠ nul := by
  unfold content at h
  split_ifs at h
  · exact line.header_ne h
  · simp only [List.mem_append, List.mem_replicate, List.mem_cons] at h
    rcases h with h | ⟨-, rfl⟩ | rfl | h
    · exact line.header_ne h
    · decide
    · decide
    · exact ⟨fun he => line.newline_notMem (he ▸ h), fun he => line.nul_notMem (he ▸ h)⟩

theorem newline_notMem_content : newline ∉ line.content := fun h => (line.content_ne h).1 rfl

/-- The range of an area is in the first piece of its line. -/
theorem rangeOf_take {n : ℕ} (hn : 34 ≤ n) : rangeOf (line.text.take n) = line.vma.toVaRange := by
  obtain ⟨rest, htext⟩ : ∃ rest, line.text = (numeral 16 8 line.vma.vaBegin.toNat ++ minus ::
      (numeral 16 8 line.vma.vaEnd.toNat ++ [space])) ++ rest := by
    unfold text content header
    split_ifs <;> simp
  have hbegin := length_numeral_le (k := 16) (show 1 < 16 by decide) (show 8 ≤ 16 by decide)
    line.vma.vaBegin.isLt
  have hend := length_numeral_le (k := 16) (show 1 < 16 by decide) (show 8 ≤ 16 by decide)
    line.vma.vaEnd.isLt
  refine rangeOf_hexRange ?_
  rw [htext, List.take_append, List.take_of_length_le, List.append_assoc, List.cons_append,
    List.append_assoc]
  · refine ⟨_, _, scanHex_eq_some_iff.mp (scanHex_numeral (by decide) ?_),
      scanHex_eq_some_iff.mp (scanHex_numeral (by decide) ?_)⟩
    · rintro c ⟨⟩
      decide
    · rintro c ⟨⟩
      decide
  · simp only [List.length_append, List.length_cons, List.length_nil]
    omega

theorem page_lt : line.vma.vaBegin.toNat / 4096 < line.vma.vaEnd.toNat / 4096 := by
  have hlt := line.nonempty
  have hbegin := line.vma.begin_aligned
  have hend := line.vma.end_aligned
  rw [BitVec.lt_def] at hlt
  omega

theorem tableCounts : TableCounts line.vma.toVaRange := by
  rw [TableCounts, BitVec.lt_def, toNat_page, toNat_page]
  exact line.page_lt

theorem virtualCounts : VirtualCounts line.vma.toVaRange := by
  have hlt := line.page_lt
  have hbegin := line.vma.begin_aligned
  have hend := line.vma.end_aligned
  have hk : (1024 : Word).toNat = 1024 := rfl
  rw [virtualCounts_iff, BitVec.le_def, BitVec.toNat_sub, hk]
  omega

theorem physicalCounts : PhysicalCounts line.vma.toVaRange := by
  have hlt := line.page_lt
  have hend := line.vma.end_aligned
  rw [physicalCounts_iff, BitVec.lt_def, toNat_pageBegin]
  omega

end MapsLine

variable {n : ℕ} {lines : List MapsLine}

theorem mapsText_eq (lines : List MapsLine) :
    mapsText lines = (lines.map MapsLine.content).flatMap (· ++ [newline]) := by
  rw [List.flatMap_map]
  rfl

theorem bufString_eq (hn : 0 < n) {buf : List Byte} (h : buf ∈ pieces n (mapsText lines)) :
    bufString buf = buf := by
  refine List.takeWhile_eq_self_iff.mpr fun c hc => decide_eq_true ?_
  obtain ⟨line, -, hmem⟩ := List.mem_flatMap.mp (mem_of_mem_pieces hn h hc)
  rcases List.mem_append.mp hmem with hmem | hmem
  · exact (line.content_ne hmem).2
  · rw [List.mem_singleton.mp hmem]
    decide

/-- A piece of a line that the line does not begin with. -/
def Later (n : ℕ) (lines : List MapsLine) (buf : List Byte) : Prop :=
  ∃ line ∈ lines, ∃ k, 1 ≤ k ∧ n * k < line.text.length ∧ buf = (line.text.drop (n * k)).take n

/-- What is read in each round, and whether a line begins with it. -/
def readRounds (n : ℕ) (lines : List MapsLine) : List (Bool × List Byte) :=
  (lineStarts true (pieces n (mapsText lines))).zip (pieces n (mapsText lines))

theorem length_readRounds (n : ℕ) (lines : List MapsLine) :
    (readRounds n lines).length = (pieces n (mapsText lines)).length := by
  rw [readRounds, List.length_zip, length_lineStarts, min_self]

theorem map_snd_readRounds (n : ℕ) (lines : List MapsLine) :
    (readRounds n lines).map Prod.snd = pieces n (mapsText lines) :=
  List.map_snd_zip (length_lineStarts true _).ge

/-- The rounds, line by line. -/
theorem readRounds_eq (hn : 0 < n) (lines : List MapsLine) :
    readRounds n lines = lines.flatMap fun line =>
      (true, line.text.take n) :: (pieces n line.text).tail.map (false, ·) := by
  have hnone : ∀ s ∈ lines.map MapsLine.content, newline ∉ s := by
    intro s hs
    obtain ⟨line, -, rfl⟩ := List.mem_map.mp hs
    exact line.newline_notMem_content
  rw [readRounds, mapsText_eq]
  refine (zip_lineStarts hn hnone).trans ?_
  rw [List.flatMap_map]
  rfl

theorem later_iff (hn : 0 < n) {buf : List Byte} :
    (false, buf) ∈ readRounds n lines ↔ Later n lines buf := by
  rw [readRounds_eq hn, List.mem_flatMap]
  refine exists_congr fun line => and_congr_right fun _ => ?_
  rw [MapsLine.text, ← mem_tail_pieces hn line.newline_notMem_content, List.mem_cons,
    List.mem_map]
  constructor
  · rintro (hfirst | ⟨later, hlater, heq⟩)
    · cases hfirst
    · cases heq
      exact hlater
  · exact fun hlater => .inr ⟨buf, hlater, rfl⟩

end Cs342.MemUtils
