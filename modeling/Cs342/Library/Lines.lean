import Cs342.Library.Bytes

/-!
# Reading a text line by line

`fgets` reads up to the end of a line, or as much of the line as its buffer holds, and the next
call goes on from there. So a long line comes in pieces: only the first of them begins where
the line does, and only the last one ends with it.
-/

namespace Cs342.Library

def newline : Byte := byte 10

/-- How much one call of `fgets` reads, if there is room for `n` bytes. -/
def fgetsLength (n : ℕ) (text : List Byte) : ℕ :=
  min n ((text.takeWhile (· ≠ newline)).length + 1)

/-- What the calls read until the text is at its end, if these are not more than so many. -/
def fgetsFor (n : ℕ) : ℕ → List Byte → List (List Byte)
  | 0, _ => []
  | _ + 1, [] => []
  | calls + 1, c :: text =>
    let length := fgetsLength n (c :: text)
    (c :: text).take length :: fgetsFor n calls ((c :: text).drop length)

/-- The pieces in which a text is read. -/
def pieces (n : ℕ) (text : List Byte) : List (List Byte) := fgetsFor n text.length text

/-- Which pieces begin a line. The first one does if `start` says so. -/
def lineStarts (start : Bool) : List (List Byte) → List Bool
  | [] => []
  | buf :: bufs => start :: lineStarts (buf.contains newline) bufs

variable {n : ℕ} {s t : List Byte}

theorem fgetsLength_pos (hn : 0 < n) (t : List Byte) : 0 < fgetsLength n t := by
  unfold fgetsLength
  omega

/-- With room for a byte more calls than bytes read nothing more. -/
theorem fgetsFor_eq (hn : 0 < n) {calls calls' : ℕ} (h : t.length ≤ calls)
    (h' : t.length ≤ calls') : fgetsFor n calls t = fgetsFor n calls' t := by
  induction calls generalizing t calls' with
  | zero =>
    obtain rfl := List.length_eq_zero_iff.mp (Nat.le_zero.mp h)
    cases calls' <;> rfl
  | succ calls ih =>
    cases calls' with
    | zero =>
      obtain rfl := List.length_eq_zero_iff.mp (Nat.le_zero.mp h')
      rfl
    | succ calls' =>
      cases t with
      | nil => rfl
      | cons c t =>
        have hlength := fgetsLength_pos hn (c :: t)
        simp only [List.length_cons] at h h'
        refine congrArg _ (ih ?_ ?_) <;> simp only [List.length_drop, List.length_cons] <;> omega

theorem pieces_cons (hn : 0 < n) (hne : t ≠ []) :
    pieces n t = t.take (fgetsLength n t) :: pieces n (t.drop (fgetsLength n t)) := by
  obtain ⟨c, t, rfl⟩ := List.exists_cons_of_ne_nil hne
  refine congrArg _ (fgetsFor_eq hn ?_ le_rfl)
  have hlength := fgetsLength_pos hn (c :: t)
  simp only [List.length_drop, List.length_cons]
  omega

theorem fgetsLength_line (hs : newline ∉ s) :
    fgetsLength n (s ++ newline :: t) = min n (s.length + 1) := by
  have hline : (s ++ newline :: t).takeWhile (· ≠ newline) = s := by
    have hall : ∀ c ∈ s, decide (c ≠ newline) = true := fun c hc =>
      decide_eq_true fun he => hs (he ▸ hc)
    rw [List.takeWhile_append_of_pos hall]
    simp
  rw [fgetsLength, hline]

/-- A line that fits in the buffer is read at once. -/
theorem pieces_of_lt (hs : newline ∉ s) (hfits : s.length < n) :
    pieces n (s ++ newline :: t) = (s ++ [newline]) :: pieces n t := by
  have hall : s ++ newline :: t = (s ++ [newline]) ++ t := by simp
  have hlength : fgetsLength n (s ++ newline :: t) = (s ++ [newline]).length := by
    rw [fgetsLength_line hs, List.length_append, List.length_singleton]
    omega
  rw [pieces_cons (Nat.zero_lt_of_lt hfits) (by simp), hlength, hall, List.take_left,
    List.drop_left]

/-- Of a line that does not fit the buffer is filled. -/
theorem pieces_of_le (hn : 0 < n) (hs : newline ∉ s) (hlong : n ≤ s.length) :
    pieces n (s ++ newline :: t) = s.take n :: pieces n (s.drop n ++ newline :: t) := by
  have hlength : fgetsLength n (s ++ newline :: t) = n := by
    rw [fgetsLength_line hs]
    omega
  rw [pieces_cons hn (by simp), hlength, List.take_append_of_le_length hlong,
    List.drop_append_of_le_length hlong]

/-- What holds of a line that fits in the buffer, and of a longer one if of what is left of it
when the buffer has been filled, holds of every line. -/
theorem line_induction (hn : 0 < n) {P : List Byte → Prop} (hs : newline ∉ s)
    (fits : ∀ s, newline ∉ s → s.length < n → P s)
    (long : ∀ s, newline ∉ s → n ≤ s.length → P (s.drop n) → P s) : P s := by
  induction hd : s.length using Nat.strong_induction_on generalizing s with
  | _ d ih =>
    rcases lt_or_ge s.length n with hfits | hlong
    · exact fits s hs hfits
    · have hless : (s.drop n).length < d := by
        rw [List.length_drop]
        omega
      exact long s hs hlong (ih _ hless (fun h => hs (List.mem_of_mem_drop h)) rfl)

/-- A line is read before what follows it. -/
theorem pieces_append (hn : 0 < n) (hs : newline ∉ s) :
    pieces n (s ++ newline :: t) = pieces n (s ++ [newline]) ++ pieces n t := by
  refine line_induction hn (P := fun s => pieces n (s ++ newline :: t) =
    pieces n (s ++ [newline]) ++ pieces n t) hs (fun s hs hfits => ?_) fun s hs hlong ih => ?_
  · rw [pieces_of_lt hs hfits, pieces_of_lt hs hfits]
    rfl
  · rw [pieces_of_le hn hs hlong, pieces_of_le hn hs hlong, ih]
    rfl

/-- The first piece of a line begins it, the others do not, and then another line begins. -/
theorem lineStarts_append (hn : 0 < n) (hs : newline ∉ s) (start : Bool) (bufs : List (List Byte)) :
    lineStarts start (pieces n (s ++ [newline]) ++ bufs) =
      start :: List.replicate ((pieces n (s ++ [newline])).length - 1) false ++
        lineStarts true bufs := by
  refine line_induction hn (P := fun s => ∀ start, lineStarts start
    (pieces n (s ++ [newline]) ++ bufs) = start :: List.replicate
      ((pieces n (s ++ [newline])).length - 1) false ++ lineStarts true bufs) hs
    (fun s hs hfits start => ?_) (fun s hs hlong ih start => ?_) start
  · rw [pieces_of_lt hs hfits]
    simp [lineStarts, pieces, fgetsFor]
  · have htake : newline ∉ s.take n := fun h => hs (List.mem_of_mem_take h)
    obtain ⟨buf, bufs', hcons⟩ : ∃ buf bufs', pieces n (s.drop n ++ [newline]) = buf :: bufs' :=
      ⟨_, _, pieces_cons hn (by simp)⟩
    rw [pieces_of_le hn hs hlong, List.cons_append, lineStarts, List.contains_eq_mem,
      decide_eq_false htake, ih false]
    simp [hcons, List.replicate_succ]

/-! ## The pieces of one line -/

theorem mem_of_mem_pieces (hn : 0 < n) {buf : List Byte} (h : buf ∈ pieces n t) {c : Byte}
    (hc : c ∈ buf) : c ∈ t := by
  induction hd : t.length using Nat.strong_induction_on generalizing t with
  | _ d ih =>
    rcases eq_or_ne t [] with rfl | hne
    · cases h
    · rw [pieces_cons hn hne, List.mem_cons] at h
      rcases h with rfl | h
      · exact List.mem_of_mem_take hc
      · have hpos := List.length_pos_iff.mpr hne
        have hless : (t.drop (fgetsLength n t)).length < d := by
          rw [List.length_drop, fgetsLength]
          omega
        exact List.mem_of_mem_drop (ih _ hless h rfl)

/-- A line is cut wherever so many more bytes of it have been read. -/
theorem pieces_line (hn : 0 < n) (hs : newline ∉ s) :
    pieces n (s ++ [newline]) = (s ++ [newline]).take n ::
      if s.length < n then [] else pieces n (s.drop n ++ [newline]) := by
  split_ifs with hfits
  · rw [pieces_of_lt hs hfits, List.take_of_length_le]
    · rfl
    · rw [List.length_append, List.length_singleton]
      exact hfits
  · have hlong := not_lt.mp hfits
    rw [pieces_of_le hn hs hlong, List.take_append_of_le_length hlong]

/-- The pieces behind the first one are those that a multiple of `n` bytes stand in front of. -/
theorem mem_tail_pieces (hn : 0 < n) (hs : newline ∉ s) {buf : List Byte} :
    buf ∈ (pieces n (s ++ [newline])).tail ↔ ∃ k, 1 ≤ k ∧ n * k < (s ++ [newline]).length ∧
      buf = ((s ++ [newline]).drop (n * k)).take n := by
  refine line_induction hn (P := fun s => buf ∈ (pieces n (s ++ [newline])).tail ↔
    ∃ k, 1 ≤ k ∧ n * k < (s ++ [newline]).length ∧
      buf = ((s ++ [newline]).drop (n * k)).take n) hs (fun s hs hfits => ?_)
    fun s hs hlong ih => ?_
  · rw [pieces_line hn hs, if_pos hfits]
    simp only [List.tail_cons, List.not_mem_nil, false_iff, not_exists, not_and]
    intro k hk hlt
    have := Nat.le_mul_of_pos_right n hk
    rw [List.length_append, List.length_singleton] at hlt
    omega
  · have hlater : newline ∉ s.drop n := fun h => hs (List.mem_of_mem_drop h)
    have hdrop (k : ℕ) : (s.drop n ++ [newline]).drop (n * k) =
        (s ++ [newline]).drop (n * (k + 1)) := by
      rw [Nat.mul_succ, Nat.add_comm, ← List.drop_drop, List.drop_append_of_le_length hlong]
    have hlength (k : ℕ) : n * k < (s.drop n ++ [newline]).length ↔
        n * (k + 1) < (s ++ [newline]).length := by
      simp only [List.length_append, List.length_drop, List.length_singleton, Nat.mul_succ]
      omega
    have hcons : pieces n (s.drop n ++ [newline]) =
        ((s.drop n ++ [newline]).drop (n * 0)).take n ::
          (pieces n (s.drop n ++ [newline])).tail := by
      rw [pieces_line hn hlater]
      rfl
    rw [pieces_line hn hs, if_neg (not_lt.mpr hlong), List.tail_cons, hcons, List.mem_cons, ih]
    constructor
    · rintro (hbuf | ⟨k, -, hlt, hbuf⟩)
      · exact ⟨1, le_rfl, (hlength 0).mp (by simp), by rw [hbuf, hdrop]⟩
      · exact ⟨k + 1, by omega, (hlength k).mp hlt, by rw [hbuf, hdrop]⟩
    · rintro ⟨k, hk, hlt, hbuf⟩
      obtain ⟨k, rfl⟩ := Nat.exists_eq_add_of_le' hk
      rw [hdrop]
      rcases Nat.eq_zero_or_pos k with rfl | hpos
      · exact .inl hbuf
      · exact .inr ⟨k, hpos, (hlength k).mpr hlt, by rw [hbuf, hdrop]⟩

/-! ## The pieces of a text -/

theorem length_lineStarts (start : Bool) (bufs : List (List Byte)) :
    (lineStarts start bufs).length = bufs.length := by
  induction bufs generalizing start with
  | nil => rfl
  | cons buf bufs ih => simp [lineStarts, ih]

theorem replicate_zip {α β : Type*} (a : α) (l : List β) :
    (List.replicate l.length a).zip l = l.map (a, ·) := by
  induction l with
  | nil => rfl
  | cons b l ih => simp [List.replicate_succ, ih]

/-- All pieces, line by line. -/
theorem zip_lineStarts (hn : 0 < n) {ls : List (List Byte)} (h : ∀ s ∈ ls, newline ∉ s) :
    let bufs := pieces n (ls.flatMap (· ++ [newline]))
    (lineStarts true bufs).zip bufs = ls.flatMap fun s =>
      (true, (s ++ [newline]).take n) :: (pieces n (s ++ [newline])).tail.map (false, ·) := by
  induction ls with
  | nil => rfl
  | cons s ls ih =>
    have hs : newline ∉ s := h s (by simp)
    have hrest := ih fun s hs => h s (by simp [hs])
    have htext : (s :: ls).flatMap (· ++ [newline]) =
        s ++ newline :: ls.flatMap (· ++ [newline]) := by simp
    obtain ⟨later, hlater⟩ : ∃ later, pieces n (s ++ [newline]) =
        (s ++ [newline]).take n :: later := ⟨_, pieces_line hn hs⟩
    simp only at hrest ⊢
    rw [htext, pieces_append hn hs, lineStarts_append hn hs, List.zip_append, hrest,
      List.flatMap_cons, hlater]
    · simp [replicate_zip]
    · simp [hlater]

/-! ## Rounds of a loop -/

theorem zip_take {α β : Type*} (l : List α) (l' : List β) (m : ℕ) :
    l.zip (l'.take m) = (l.zip l').take m := by
  induction l generalizing l' m with
  | nil => simp
  | cons a l ih =>
    cases l' <;> cases m <;> simp [ih]

theorem mem_take_iff {α : Type*} {l : List α} {m : ℕ} {x : α} :
    x ∈ l.take m ↔ ∃ i < m, l[i]? = some x := by
  simp only [List.mem_iff_getElem?, List.getElem?_take]
  grind

theorem mem_drop_iff {α : Type*} {l : List α} {m : ℕ} {x : α} :
    x ∈ l.drop m ↔ ∃ i, m ≤ i ∧ l[i]? = some x := by
  simp only [List.mem_iff_getElem?, List.getElem?_drop]
  constructor
  · rintro ⟨i, hi⟩
    exact ⟨m + i, by omega, hi⟩
  · rintro ⟨i, hm, hi⟩
    exact ⟨i - m, by rwa [Nat.add_sub_cancel' hm]⟩

/-- A loop that may fail in each round. -/
theorem mapM_eq_some_iff {α β : Type*} {f : α → Option β} {g : α → β} {l : List α}
    (hf : ∀ a ∈ l, ∀ b, f a = some b → b = g a) {m : List β} :
    l.mapM f = some m ↔ (∀ a ∈ l, (f a).isSome = true) ∧ m = l.map g := by
  induction l generalizing m with
  | nil =>
    simp only [List.mapM_nil, List.map_nil, Option.pure_def, Option.some.injEq]
    exact ⟨fun h => ⟨by simp, h.symm⟩, fun h => h.2.symm⟩
  | cons a l ih =>
    have hrest {m : List β} := ih (m := m) fun a h => hf a (List.mem_cons_of_mem _ h)
    cases ha : f a with
    | none => simp [ha]
    | some b =>
      have hb := hf a List.mem_cons_self b ha
      have hcons : (a :: l).mapM f = some m ↔ ∃ m', l.mapM f = some m' ∧ b :: m' = m := by
        rw [List.mapM_cons, ha]
        simp [Option.bind_eq_some_iff]
      simp only [hcons, hrest, List.forall_mem_cons, ha, List.map_cons, ← hb]
      grind

/-- What is accepted of the first rounds is what the beginnings of lines give, and nothing else
is: this is so if no line begins later, as what they give is accepted. -/
theorem filter_take_iff {α β : Type*} {rows : List (Bool × α)} {g : α → β} {p : β → Prop}
    [DecidablePred p] (hown : ∀ a, (true, a) ∈ rows → p (g a)) (m : ℕ) :
    (((rows.take m).map fun x => g x.2).filter p = (rows.filter Prod.fst).map (fun x => g x.2) ∧
        ∀ a, (false, a) ∈ rows.take m → ¬ p (g a)) ↔
      (∀ a, (true, a) ∉ rows.drop m) ∧ ∀ a, (false, a) ∈ rows.take m → ¬ p (g a) := by
  refine and_congr_left fun hlater => ?_
  have htake : ((rows.take m).map fun x => g x.2).filter p =
      ((rows.take m).filter Prod.fst).map fun x => g x.2 := by
    rw [List.filter_map]
    refine congrArg _ (List.filter_congr ?_)
    rintro ⟨start, a⟩ ha
    cases start with
    | true => simpa using hown a (List.mem_of_mem_take ha)
    | false => simpa using hlater a ha
  have hrows : rows.filter Prod.fst =
      (rows.take m).filter Prod.fst ++ (rows.drop m).filter Prod.fst := by
    rw [← List.filter_append, List.take_append_drop]
  rw [htake, hrows, List.map_append, List.self_eq_append_right, List.map_eq_nil_iff,
    List.filter_eq_nil_iff]
  constructor
  · intro hnone a ha
    exact hnone _ ha rfl
  · rintro hnone ⟨start, a⟩ ha hstart
    obtain rfl : start = true := hstart
    exact hnone a ha

end Cs342.Library
