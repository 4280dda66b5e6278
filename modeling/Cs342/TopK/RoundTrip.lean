import Cs342.TopK.ProcTopK

/-!
# What the parent reads back (proctopk.c)

The children write their records one behind the other from where the offset says, and the
parent reads them at fixed distances. A word of 64 bytes or more fills its field without a
zero, so the parent reads on: the frequency, and if that has no zero byte either, the
record behind it. Such a word comes back only if this happens to be the rest of it.

Accesses are counted from the start of the segment, where the `int` is. Without children
the segment has no room for it.
-/

namespace Cs342.TopK

open Library

/-- What the children found, with words of any length. -/
structure Batch where
  K : ℕ
  children : List (List Pair)
  size_le : ∀ res ∈ children, res.length ≤ K
  word_nul : ∀ res ∈ children, ∀ r ∈ res, nul ∉ r.first
  freq_int : ∀ res ∈ children, ∀ r ∈ res, IsInt r.second

/-! ## Accesses to the segment -/

/-- An address and a number of bytes. -/
abbrev Access := ℤ × ℤ

def Access.Inside (size : ℤ) (a : Access) : Prop := 0 ≤ a.1 ∧ a.1 + a.2 ≤ size

/-- The offset is read or written. -/
def offsetAccess : Access := (0, 4)

/-- The accesses of `writeResults`. -/
def writeAccesses (cur : ℤ) : List Pair → List Access
  | [] => []
  | _ :: rest =>
    (cur + 5, 64) :: offsetAccess :: (cur + 64 + 5, 4) :: offsetAccess ::
      writeAccesses (cur + 68) rest

/-- The accesses of the parent's loop, in which a string is read up to its zero. -/
def readAccesses (curmem : ℤ) : List Pair → List Access
  | [] => []
  | r :: recs =>
    (curmem + 5, r.first.length + 1) :: (curmem + 64 + 5, 4) :: readAccesses (curmem + 68) recs

/-- One child after another. -/
def writeAll (junk : ℤ → ℕ → Byte) (seg : Segment) (children : List (List Pair)) : Segment :=
  children.foldl (fun seg res => writeResults junk seg seg.offset res) seg

def writeAllAccesses (junk : ℤ → ℕ → Byte) (seg : Segment) : List (List Pair) → List Access
  | [] => []
  | res :: children =>
    offsetAccess :: writeAccesses seg.offset res ++
      writeAllAccesses junk (writeResults junk seg seg.offset res) children

/-- The segment that the parent prepares. -/
def Segment.blank : Segment := ⟨0, fun _ => nul⟩

namespace Batch

def N (b : Batch) : ℕ := b.children.length

def size (b : Batch) : ℤ := shmemSize b.N b.K

/-- The parent finds the pairs of the children, one child behind the other, and then empty
records, and neither they nor it leave the segment. The first access sets the offset. -/
def RoundTrips (b : Batch) (junk : ℤ → ℕ → Byte) : Prop :=
  ∃ recs, (writeAll junk .blank b.children).decode b.size (b.N * b.K) 0 = some recs ∧
    recs = b.children.flatten ++
      List.replicate (b.N * b.K - b.children.flatten.length) ⟨[], 0⟩ ∧
    ∀ a ∈ offsetAccess :: writeAllAccesses junk .blank b.children ++ readAccesses 0 recs,
      a.Inside b.size

/-- The products and the offset fit in an `int`. -/
def Fits (b : Batch) : Prop := b.N * b.K < 2 ^ 31 ∧ 68 * b.children.flatten.length < 2 ^ 31

end Batch

/-- The fields of the records, as far as they matter up to the first zero byte. -/
def image (rs : List Pair) : List Byte :=
  rs.flatMap fun r => (r.first ++ [nul]).take 64 ++ intBytes r.second

/-- What follows a word that fills its field: the bytes of its frequency and of the records
behind it, up to the first zero. -/
def spill (freq : ℤ) (rs : List Pair) : CString := (intBytes freq ++ image rs).takeWhile (· ≠ nul)

/-- Each word is shorter than its field, or what it would spill over is the rest of it. -/
def Recoverable : List Pair → Prop
  | [] => True
  | r :: rs => (r.first.length < 64 ∨ r.first.drop 64 = spill r.second rs) ∧ Recoverable rs

/-! ## Writing -/

variable {junk : ℤ → ℕ → Byte} {seg : Segment} {log res rs : List Pair} {m : Mem} {a : ℤ}

/-- One round of the child's loop. -/
def writeRecord (junk : ℤ → ℕ → Byte) (seg : Segment) (cur : ℤ) (r : Pair) : Segment where
  offset := toInt (toInt (seg.offset + 64) + 4)
  bytes := (seg.bytes.write cur (copied r.first (junk cur))).write (cur + 64) (intBytes r.second)

theorem writeRecord_stores (junk : ℤ → ℕ → Byte) (r : Pair) (hlog : StoresAll seg.bytes 0 log)
    (hclean : seg.Clean (68 * log.length)) (hfits : 68 * (log.length + 1) < (2 ^ 31 : ℤ)) :
    StoresAll (writeRecord junk seg (68 * log.length) r).bytes 0 (log ++ [r]) ∧
      (writeRecord junk seg (68 * log.length) r).Clean (68 * log.length + 68) := by
  obtain ⟨hoff, hzero⟩ := hclean
  have hword := copied_length r.first (junk (68 * log.length))
  have hint : (intBytes r.second).length = 4 := rfl
  constructor
  · refine StoresAll.concat (hlog.congr fun b hb => ?_) ?_
    · exact (Mem.write_of_lt (by omega)).trans (Mem.write_of_lt (by omega))
    · rw [zero_add]
      exact ⟨StoresWord.congr ⟨_, Mem.stores_write⟩ fun b hb => Mem.write_of_lt hb,
        Mem.stores_write⟩
  · constructor
    · have hadvance : toInt (seg.offset + 64) = 68 * log.length + 64 := by
        rw [hoff, toInt_eq (by omega) (by omega)]
      calc toInt (toInt (seg.offset + 64) + 4) = toInt (68 * log.length + 64 + 4) := by
            rw [hadvance]
        _ = 68 * log.length + 64 + 4 := toInt_eq (by omega) (by omega)
        _ = 68 * log.length + 68 := by ring
    · intro b hb
      exact (Mem.write_of_le (by omega)).trans
        ((Mem.write_of_le (by omega)).trans (hzero b (by omega)))

theorem writeResults_stores (junk : ℤ → ℕ → Byte) (res : List Pair)
    (hlog : StoresAll seg.bytes 0 log) (hclean : seg.Clean (68 * log.length))
    (hfits : 68 * (log.length + res.length) < (2 ^ 31 : ℤ)) :
    StoresAll (writeResults junk seg (68 * log.length) res).bytes 0 (log ++ res) ∧
      (writeResults junk seg (68 * log.length) res).Clean (68 * (log ++ res).length) := by
  induction res generalizing seg log with
  | nil =>
    rw [List.append_nil]
    exact ⟨hlog, hclean⟩
  | cons r res ih =>
    simp only [List.length_cons, Nat.cast_add, Nat.cast_one] at hfits
    obtain ⟨hlog', hclean'⟩ := writeRecord_stores junk r hlog hclean (by omega)
    have hlength : (68 * (log ++ [r]).length : ℤ) = 68 * log.length + 68 := by
      simp only [List.length_append, List.length_singleton]
      push_cast
      ring
    rw [← hlength] at hclean'
    have hrest := ih hlog' hclean' (by omega)
    rw [List.append_assoc, List.singleton_append, hlength] at hrest
    exact hrest

theorem stores_blank : StoresAll Segment.blank.bytes 0 [] := trivial

theorem clean_blank : Segment.blank.Clean (68 * ([] : List Pair).length) := ⟨rfl, fun _ _ => rfl⟩

theorem writeAll_stores (junk : ℤ → ℕ → Byte) {children : List (List Pair)}
    (hlog : StoresAll seg.bytes 0 log) (hclean : seg.Clean (68 * log.length))
    (hfits : 68 * (log.length + children.flatten.length) < (2 ^ 31 : ℤ)) :
    StoresAll (writeAll junk seg children).bytes 0 (log ++ children.flatten) ∧
      (writeAll junk seg children).Clean (68 * (log ++ children.flatten).length) := by
  induction children generalizing seg log with
  | nil =>
    rw [List.flatten_nil, List.append_nil]
    exact ⟨hlog, hclean⟩
  | cons res children ih =>
    simp only [List.flatten_cons, List.length_append, Nat.cast_add] at hfits
    obtain ⟨hlog', hclean'⟩ := writeResults_stores junk res hlog hclean
      (by omega)
    have hrest := ih hlog' hclean' (by
      simp only [List.length_append, Nat.cast_add]
      omega)
    rw [← hclean.1, List.append_assoc] at hrest
    exact hrest

/-! ## Reading -/

/-- The string that is found in the field of a word. -/
def readBack (r : Pair) (rs : List Pair) : CString :=
  if r.first.length < 64 then r.first else r.first.take 64 ++ spill r.second rs

def readBackAll : List Pair → List Pair
  | [] => []
  | r :: rs => ⟨readBack r rs, r.second⟩ :: readBackAll rs

theorem image_takeWhile {r : Pair} (hnul : nul ∉ r.first) (rs : List Pair) :
    (image (r :: rs)).takeWhile (· ≠ nul) = readBack r rs := by
  rw [image, List.flatMap_cons, ← image, readBack, spill, List.append_assoc]
  have hword : ∀ x ∈ r.first, decide (x ≠ nul) = true := fun x hx =>
    decide_eq_true fun he => hnul (he ▸ hx)
  split_ifs with hlength
  · have hfield : (r.first ++ [nul]).length ≤ 64 := by
      rw [List.length_append, List.length_singleton]
      omega
    rw [List.take_of_length_le hfield, List.append_assoc, List.takeWhile_append_of_pos hword]
    simp
  · rw [List.take_append_of_le_length (not_lt.mp hlength),
      List.takeWhile_append_of_pos fun x hx => hword x (List.mem_of_mem_take hx)]

/-- Up to its first zero the memory is what the fields say. -/
theorem stores_image (h : StoresAll m a rs) (hnul : ∀ r ∈ rs, nul ∉ r.first)
    (hzero : ∀ b, a + 68 * rs.length ≤ b → m b = nul) :
    ∃ bs, m.Stores a ((image rs).takeWhile (· ≠ nul) ++ nul :: bs) := by
  induction rs generalizing a with
  | nil => exact ⟨[], hzero a (by simp), trivial⟩
  | cons r rs ih =>
    simp only [List.length_cons, Nat.cast_add, Nat.cast_one] at hzero
    obtain ⟨⟨⟨junk, hw⟩, hi⟩, hrest⟩ := h
    have hr := hnul r (by simp)
    rw [image_takeWhile hr, readBack]
    split_ifs with hlength
    · obtain ⟨bs, hbs⟩ := copied_eq hlength junk
      exact ⟨bs, hbs ▸ hw⟩
    · -- the field is full, and the string goes on with the frequency
      obtain ⟨bs, hbs⟩ := ih hrest (fun r hr => hnul r (by simp [hr]))
        fun b hb => hzero b (by omega)
      have hnext : a + 64 + (intBytes r.second).length = a + 68 := by
        simp only [intBytes, List.length_cons, List.length_nil]
        push_cast
        ring
      rw [← hnext] at hbs
      obtain ⟨bs, hbs⟩ := hi.takeWhile hbs
      have hfield : copied r.first junk = r.first.take 64 :=
        List.take_append_of_le_length (not_lt.mp hlength)
      have htake : (r.first.take 64).length = 64 := by simpa using hlength
      refine ⟨bs, ?_⟩
      rw [List.append_assoc, Mem.stores_append, htake, ← hfield]
      exact ⟨hw, hbs⟩

theorem length_image (rs : List Pair) : (image rs).length ≤ 68 * rs.length := by
  induction rs with
  | nil => rfl
  | cons r rs ih =>
    have hint : (intBytes r.second).length = 4 := rfl
    rw [image, List.flatMap_cons, ← image, List.length_append, List.length_append, hint,
      List.length_take, List.length_cons]
    omega

theorem length_spill (freq : ℤ) (rs : List Pair) : (spill freq rs).length ≤ 4 + 68 * rs.length := by
  have hle := (List.takeWhile_sublist (l := intBytes freq ++ image rs) (· ≠ nul)).length_le
  have hint : (intBytes freq).length = 4 := rfl
  have himage := length_image rs
  rw [List.length_append, hint] at hle
  exact hle.trans (by omega)

theorem length_readBack (r : Pair) (rs : List Pair) :
    (readBack r rs).length ≤ 68 * (r :: rs).length := by
  have hspill := length_spill r.second rs
  rw [readBack, List.length_cons]
  split_ifs with hlength
  · omega
  · rw [List.length_append, List.length_take]
    omega

/-- The parent reads each field with what spills over from it, and then empty records. -/
theorem decode_readBackAll {size : ℤ} {n : ℕ} {curmem : ℤ} (h : StoresAll seg.bytes curmem rs)
    (hnul : ∀ r ∈ rs, nul ∉ r.first) (hint : ∀ r ∈ rs, IsInt r.second)
    (hzero : ∀ b, curmem + 68 * rs.length ≤ b → seg.bytes b = nul) (hn : rs.length ≤ n)
    (hsize : n ≠ 0 → 68 * n < (size - 5 - curmem).toNat) :
    seg.decode size n curmem =
      some (readBackAll rs ++ List.replicate (n - rs.length) ⟨[], 0⟩) := by
  induction rs generalizing n curmem with
  | nil =>
    refine decode_zero (by simpa using hzero) ?_
    rcases Nat.eq_zero_or_pos n with rfl | hpos
    · exact Nat.zero_le _
    · exact (hsize hpos.ne').le
  | cons r rs ih =>
    obtain ⟨n, rfl⟩ := Nat.exists_eq_succ_of_ne_zero (Nat.ne_of_gt (Nat.zero_lt_of_lt hn))
    have hroom := hsize (Nat.succ_ne_zero n)
    obtain ⟨bs, hword⟩ := stores_image h hnul hzero
    have hread : nul ∉ (image (r :: rs)).takeWhile (· ≠ nul) := fun hmem => by
      simpa using List.mem_takeWhile_imp hmem
    rw [image_takeWhile (hnul r (by simp))] at hword hread
    have hlength := length_readBack r rs
    have hcstr : seg.bytes.cstr (size - 5 - curmem).toNat curmem = some (readBack r rs) :=
      hword.cstr hread (by omega)
    simp only [List.length_cons, Nat.cast_add, Nat.cast_one] at hzero hn
    obtain ⟨⟨-, hi⟩, hrest⟩ := h
    have hdec := ih hrest (fun r hr => hnul r (by simp [hr])) (fun r hr => hint r (by simp [hr]))
      (fun b hb => hzero b (by omega)) (n := n) (by omega) (by omega)
    obtain ⟨hlo, hhi⟩ := hint r (by simp)
    simp [Segment.decode, hcstr, hdec, hi.int hlo hhi, readBackAll]

theorem readBackAll_eq_iff : readBackAll rs = rs ↔ Recoverable rs := by
  induction rs with
  | nil => exact iff_of_true rfl trivial
  | cons r rs ih =>
    have hword : readBack r rs = r.first ↔
        r.first.length < 64 ∨ r.first.drop 64 = spill r.second rs := by
      rw [readBack]
      split_ifs with hlength
      · exact iff_of_true rfl (.inl hlength)
      · rw [or_iff_right hlength, eq_comm (a := r.first.drop 64)]
        conv_lhs => rhs; rw [← List.take_append_drop 64 r.first]
        exact List.append_right_inj _
    rw [readBackAll, List.cons.injEq, ih, Recoverable, ← hword]
    obtain ⟨first, second⟩ := r
    simp

/-- A word that comes back is not longer than the records. -/
theorem Recoverable.length_le (h : Recoverable rs) :
    ∀ r ∈ rs, r.first.length ≤ 68 * rs.length := by
  induction rs with
  | nil => simp
  | cons r rs ih =>
    have hback : readBack r rs = r.first := by
      have hall := readBackAll_eq_iff.mpr h
      rw [readBackAll, List.cons.injEq] at hall
      exact congrArg Pair.first hall.1
    refine List.forall_mem_cons.mpr ⟨hback ▸ length_readBack r rs, fun x hx => ?_⟩
    exact (ih h.2 x hx).trans (by rw [List.length_cons]; omega)

/-! ## Staying inside -/

/-- The segment has room for the offset and, if there are any, for so many records. -/
def Room (size total : ℤ) : Prop := 4 ≤ size ∧ (1 ≤ total → 136 * total + 6 ≤ size)

variable {size total : ℤ}

theorem offsetAccess_inside (h : Room size total) : offsetAccess.Inside size :=
  ⟨le_rfl, h.1⟩

theorem writeAccesses_inside (h : Room size total) {cur : ℤ} (hcur : 0 ≤ cur)
    (hend : cur + 68 * res.length ≤ 68 * total) :
    ∀ x ∈ writeAccesses cur res, Access.Inside size x := by
  induction res generalizing cur with
  | nil => simp [writeAccesses]
  | cons r res ih =>
    simp only [List.length_cons, Nat.cast_add, Nat.cast_one] at hend
    have hroom := h.2 (by omega)
    have hrest : ∀ x ∈ writeAccesses (cur + 68) res, Access.Inside size x :=
      ih (by omega) (by omega)
    simp only [writeAccesses, List.forall_mem_cons]
    refine ⟨⟨?_, ?_⟩, offsetAccess_inside h, ⟨?_, ?_⟩, offsetAccess_inside h, hrest⟩ <;>
      simp only <;> omega

theorem readAccesses_inside (h : Room size total) {curmem : ℤ} (hcur : 0 ≤ curmem)
    (hend : curmem + 68 * rs.length ≤ 68 * total)
    (hwords : ∀ r ∈ rs, r.first.length ≤ 68 * total) :
    ∀ x ∈ readAccesses curmem rs, Access.Inside size x := by
  induction rs generalizing curmem with
  | nil => simp [readAccesses]
  | cons r rs ih =>
    obtain ⟨hword, hwords⟩ := List.forall_mem_cons.mp hwords
    simp only [List.length_cons, Nat.cast_add, Nat.cast_one] at hend
    have hroom := h.2 (by omega)
    have hrest : ∀ x ∈ readAccesses (curmem + 68) rs, Access.Inside size x :=
      ih (by omega) (by omega) hwords
    simp only [readAccesses, List.forall_mem_cons]
    refine ⟨⟨?_, ?_⟩, ⟨?_, ?_⟩, hrest⟩ <;> simp only <;> omega

theorem writeAllAccesses_inside (junk : ℤ → ℕ → Byte) (h : Room size total)
    {children : List (List Pair)} (hlog : StoresAll seg.bytes 0 log)
    (hclean : seg.Clean (68 * log.length))
    (hfits : 68 * (log.length + children.flatten.length) < (2 ^ 31 : ℤ))
    (htotal : log.length + children.flatten.length ≤ total) :
    ∀ x ∈ writeAllAccesses junk seg children, Access.Inside size x := by
  induction children generalizing seg log with
  | nil => simp [writeAllAccesses]
  | cons res children ih =>
    simp only [List.flatten_cons, List.length_append, Nat.cast_add] at hfits htotal
    obtain ⟨hlog', hclean'⟩ := writeResults_stores junk res hlog hclean
      (by omega)
    have hrest := ih hlog' hclean' (by simp only [List.length_append, Nat.cast_add]; omega)
      (by simp only [List.length_append, Nat.cast_add]; omega)
    have hthis : ∀ x ∈ writeAccesses (68 * log.length) res, Access.Inside size x :=
      writeAccesses_inside h (by omega) (by omega)
    rw [← hclean.1] at hrest hthis
    simp only [writeAllAccesses, List.cons_append, List.forall_mem_cons, List.forall_mem_append]
    exact ⟨offsetAccess_inside h, hthis, hrest⟩

namespace Batch

variable {b : Batch}

theorem length_le (b : Batch) : b.children.flatten.length ≤ b.N * b.K := by
  rw [List.length_flatten]
  calc (b.children.map List.length).sum ≤ (b.children.map List.length).length • b.K :=
        List.sum_le_card_nsmul _ _ fun n hn => by
          obtain ⟨res, hres, rfl⟩ := List.mem_map.mp hn
          exact b.size_le res hres
    _ = b.N * b.K := by rw [List.length_map, smul_eq_mul, N]

/-- With a child there is room for everything. -/
theorem room_iff (b : Batch) (h : b.Fits) : Room b.size ((b.N * b.K : ℕ) : ℤ) ↔ 1 ≤ b.N := by
  have hnonneg : (0 : ℤ) ≤ (b.N * b.K : ℕ) := Int.natCast_nonneg _
  rw [Room, size, shmemSize_eq h.1]
  constructor
  · rintro ⟨hoffset, -⟩
    by_contra hnone
    obtain hzero : b.N = 0 := by omega
    simp [hzero] at hoffset
  · intro hN
    omega

theorem written_fits (b : Batch) (h : b.Fits) :
    68 * ((([] : List Pair).length : ℤ) + b.children.flatten.length) < 2 ^ 31 := by
  have hfit := h.2
  rw [List.length_nil]
  omega

/-- What the parent reads. -/
theorem decode_eq (b : Batch) (junk : ℤ → ℕ → Byte) (hfits : b.Fits) :
    (writeAll junk .blank b.children).decode b.size (b.N * b.K) 0 =
      some (readBackAll b.children.flatten ++
        List.replicate (b.N * b.K - b.children.flatten.length) ⟨[], 0⟩) := by
  have hmem (r : Pair) (hr : r ∈ b.children.flatten) : nul ∉ r.first ∧ IsInt r.second := by
    obtain ⟨res, hres, hr⟩ := List.mem_flatten.mp hr
    exact ⟨b.word_nul res hres r hr, b.freq_int res hres r hr⟩
  obtain ⟨hstored, hclean⟩ := writeAll_stores junk stores_blank clean_blank (b.written_fits hfits)
  rw [List.nil_append] at hstored hclean
  refine decode_readBackAll hstored (fun r hr => (hmem r hr).1) (fun r hr => (hmem r hr).2)
    (fun x hx => hclean.2 x (by omega)) b.length_le fun hne => ?_
  have hN : 1 ≤ b.N := by
    by_contra hnone
    exact hne (by simp [show b.N = 0 by omega])
  have hroom := ((b.room_iff hfits).mpr hN).2 (by omega)
  omega

/-- When children run one after another, what they found comes back and no access leaves the
segment exactly when there is a child and each word is shorter than 64 bytes, or what follows
in the segment up to the first zero is the rest of it. -/
theorem roundTrips_iff (b : Batch) (junk : ℤ → ℕ → Byte) (hfits : b.Fits) :
    b.RoundTrips junk ↔ 1 ≤ b.N ∧ Recoverable b.children.flatten := by
  rw [RoundTrips, b.decode_eq junk hfits]
  constructor
  · rintro ⟨recs, hrecs, heq, hinside⟩
    obtain rfl := Option.some.inj hrecs
    have hoffset := hinside offsetAccess (by simp)
    refine ⟨?_, readBackAll_eq_iff.mp (List.append_cancel_right heq)⟩
    by_contra hnone
    have hzero : b.N = 0 := by omega
    have hsize : b.size = 0 := by
      rw [size, shmemSize_eq hfits.1, hzero]
      simp
    simp [Access.Inside, offsetAccess, hsize] at hoffset
  · rintro ⟨hN, hrec⟩
    have hroom := (b.room_iff hfits).mpr hN
    have hlength := b.length_le
    rw [readBackAll_eq_iff.mpr hrec]
    refine ⟨_, rfl, rfl, ?_⟩
    rw [List.cons_append, List.forall_mem_cons, List.forall_mem_append]
    refine ⟨offsetAccess_inside hroom, ?_, readAccesses_inside hroom le_rfl ?_ fun r hr => ?_⟩
    · refine writeAllAccesses_inside junk hroom stores_blank clean_blank (b.written_fits hfits) ?_
      rw [List.length_nil]
      omega
    · rw [List.length_append, List.length_replicate]
      omega
    · rcases List.mem_append.mp hr with hr | hr
      · have := hrec.length_le r hr
        omega
      · obtain ⟨-, rfl⟩ := List.mem_replicate.mp hr
        rw [List.length_nil]
        omega

/-- Two children with one word each. -/
def short : Batch where
  K := 1
  children := [[⟨[byte 66], 1⟩], [⟨[byte 65], 2⟩]]
  size_le := by decide
  word_nul := by decide
  freq_int := by decide

theorem roundTrips_short : short.RoundTrips fun _ _ => nul :=
  (roundTrips_iff short _ ⟨by decide, by decide⟩).mpr
    ⟨by decide, .inl (by decide), .inl (by decide), trivial⟩

/-- One child with a word of 64 letters. -/
def fullField : Batch where
  K := 1
  children := [[⟨List.replicate 64 (byte 65), 1⟩]]
  size_le := by decide
  word_nul := by decide
  freq_int := by decide

/-- The word comes back with the first byte of the frequency as its 65th. -/
theorem roundTrips_fails_fullField :
    (writeAll (fun _ _ => nul) .blank fullField.children).decode fullField.size 1 0 =
        some [⟨List.replicate 64 (byte 65) ++ [byte 1], 1⟩] ∧
      ¬ fullField.RoundTrips fun _ _ => nul := by
  have hdecode : (writeAll (fun _ _ => nul) .blank fullField.children).decode fullField.size 1 0 =
      some [⟨List.replicate 64 (byte 65) ++ [byte 1], 1⟩] := by
    have hback := fullField.decode_eq (fun _ _ => nul) ⟨by decide, by decide⟩
    have hlong : readBackAll fullField.children.flatten =
        [⟨List.replicate 64 (byte 65) ++ [byte 1], 1⟩] := by decide +kernel
    rw [hlong] at hback
    exact hback
  refine ⟨hdecode, ?_⟩
  rintro ⟨recs, hrecs, heq, -⟩
  obtain rfl := Option.some.inj (hdecode.symm.trans hrecs)
  exact absurd heq (by decide +kernel)

end Batch

/-! ## The children of the program -/

/-- Each child writes what it finds in its file. -/
theorem foldl_child_eq (K : ℕ) (junk : ℤ → ℕ → Byte) (seg : Segment) (files : List (List Byte)) :
    files.foldl (child K junk) seg = writeAll junk seg (files.map (found K)) := by
  have hchild : child K junk = fun seg file => writeResults junk seg seg.offset (found K file) :=
    funext₂ fun seg file => child_eq K junk seg file
  rw [writeAll, List.foldl_map, hchild]

end Cs342.TopK
