import Cs342.Library.Strtoul

/-!
# Texts that delimit themselves

A way of writing values down delimits itself if nobody needs to know where a text ends to get its
value back: what has been written behind it may be anything. Such ways can be put one behind the
other, and so a table can be read back cell by cell. A number delimits itself if it is followed
by something that is no digit.
-/

namespace Cs342.Library

variable {α β : Type*}

/-- From a text and what is behind it, both the value and what is behind it are known. -/
def SelfDelimiting (f : α → List β) : Prop :=
  ∀ ⦃x y : α⦄ ⦃s t : List β⦄, f x ++ s = f y ++ t → x = y ∧ s = t

namespace SelfDelimiting

variable {f : α → List β}

theorem injective (h : SelfDelimiting f) : Function.Injective f := fun _ _ heq =>
  (h (congrArg (· ++ []) heq)).1

theorem const_append (h : SelfDelimiting f) (front : List β) :
    SelfDelimiting fun x => front ++ f x := by
  intro x y s t heq
  rw [List.append_assoc, List.append_assoc] at heq
  exact h (List.append_cancel_left heq)

/-- So many values, each in its own way. -/
theorem pi {n : ℕ} {f : Fin n → α → List β} (h : ∀ i, SelfDelimiting (f i)) :
    SelfDelimiting fun v : Fin n → α => (List.finRange n).flatMap fun i => f i (v i) := by
  have hcells : ∀ (is : List (Fin n)) (v w : Fin n → α) (s t : List β),
      is.flatMap (fun i => f i (v i)) ++ s = is.flatMap (fun i => f i (w i)) ++ t →
        (∀ i ∈ is, v i = w i) ∧ s = t := by
    intro is v w s t heq
    induction is with
    | nil => exact ⟨by simp, by simpa using heq⟩
    | cons i is ih =>
      simp only [List.flatMap_cons, List.append_assoc] at heq
      obtain ⟨hfirst, hrest⟩ := h i heq
      obtain ⟨hall, hst⟩ := ih hrest
      exact ⟨List.forall_mem_cons.mpr ⟨hfirst, hall⟩, hst⟩
  intro v w s t heq
  obtain ⟨hall, hst⟩ := hcells _ v w s t heq
  exact ⟨funext fun i => hall i (List.mem_finRange i), hst⟩

/-- Any number of values, and an end that no value is written like. -/
theorem flatMap (h : SelfDelimiting f) {last : List β} (hlast : ∀ x s t, f x ++ s ≠ last ++ t) :
    SelfDelimiting fun l : List α => l.flatMap f ++ last := by
  intro l m s t heq
  induction l generalizing m with
  | nil =>
    cases m with
    | nil => exact ⟨rfl, List.append_cancel_left heq⟩
    | cons y m =>
      simp only [List.flatMap_cons, List.append_assoc] at heq
      exact absurd heq.symm (hlast y _ _)
  | cons x l ih =>
    cases m with
    | nil =>
      simp only [List.flatMap_cons, List.append_assoc] at heq
      exact absurd heq (hlast x _ _)
    | cons y m =>
      simp only [List.flatMap_cons, List.append_assoc] at heq
      obtain ⟨rfl, hrest⟩ := h heq
      simp only [← List.append_assoc] at hrest
      obtain ⟨rfl, hst⟩ := ih hrest
      exact ⟨rfl, hst⟩

end SelfDelimiting

/-! ## Numbers -/

/-- `%*d`. -/
def paddedText (width : ℕ) (x : ℤ) : CString := (intText x).leftpad width (byte 32)

/-- A number behind blanks, and what is behind it. -/
def readInt (s : CString) : ℤ × CString :=
  let s := s.dropWhile isSpace
  let magnitude : ℤ := numeralValue 10 ((skipSign s).takeWhile (isDigitOf 10))
  (if s.head? = some minus then -magnitude else magnitude,
    (skipSign s).dropWhile (isDigitOf 10))

/-- The sign and the digits. -/
theorem intText_eq (x : ℤ) :
    intText x = (if x < 0 then [minus] else []) ++ numeral 10 1 x.natAbs := by
  rw [intText]
  split_ifs <;> rfl

variable {rest : CString}

theorem numeral_ne_nil (x : ℤ) : numeral 10 1 x.natAbs ≠ [] :=
  List.ne_nil_of_length_pos (le_length_numeral 10 1 _)

theorem isDigitOf_numeral (x : ℤ) : ∀ c ∈ numeral 10 1 x.natAbs, isDigitOf 10 c = true :=
  fun _ hc => isDigitOf_of_mem_numeral (by decide) (by decide) hc

/-- The number begins with a sign or a digit. -/
theorem head_intText (x : ℤ) :
    ∀ c ∈ (intText x ++ rest).head?, c = minus ∨ isDigitOf 10 c = true := by
  rw [intText_eq, List.append_assoc]
  split_ifs
  · rintro c ⟨⟩
    exact .inl rfl
  · rw [List.nil_append, List.head?_append_of_ne_nil _ (numeral_ne_nil x)]
    exact fun c hc => .inr (isDigitOf_numeral x c (List.mem_of_mem_head? hc))

/-- With its padding it may begin with a blank as well. -/
theorem head_paddedText (width : ℕ) (x : ℤ) :
    ∀ c ∈ (paddedText width x ++ rest).head?, c = byte 32 ∨ c = minus ∨ isDigitOf 10 c = true := by
  rw [paddedText, List.leftpad, List.append_assoc]
  cases width - (intText x).length with
  | zero => exact fun c hc => .inr (head_intText x c hc)
  | succ k =>
    rintro c ⟨⟩
    exact .inl rfl

/-- There is a sign if and only if the number is negative. -/
theorem skipSign_intText (rest : CString) (x : ℤ) :
    skipSign (intText x ++ rest) = numeral 10 1 x.natAbs ++ rest ∧
    ((intText x ++ rest).head? = some minus ↔ x < 0) := by
  have hnosign : ∀ c : Byte, isDigitOf 10 c = true → c ≠ plus ∧ c ≠ minus := by decide +kernel
  have hdigits : ∀ c ∈ (numeral 10 1 x.natAbs ++ rest).head?, c ≠ plus ∧ c ≠ minus := by
    rw [List.head?_append_of_ne_nil _ (numeral_ne_nil x)]
    exact fun c hc => hnosign c (isDigitOf_numeral x c (List.mem_of_mem_head? hc))
  have hsign : (if x < 0 then [minus] else []) ∈ ([[], [plus], [minus]] : List CString) := by
    split_ifs <;> simp
  obtain ⟨hskip, hhead⟩ := skipSign_append hsign hdigits
  rw [← List.append_assoc, ← intText_eq] at hskip hhead
  refine ⟨hskip, hhead.trans ?_⟩
  split_ifs with hneg <;> simp [hneg]

/-- A number is read back, whatever it is padded to. -/
theorem readInt_paddedText (width : ℕ) (x : ℤ) (hrest : ∀ c ∈ rest.head?, isDigitOf 10 c = false) :
    readInt (paddedText width x ++ rest) = (x, rest) := by
  have hnot : ∀ c : Byte, c = minus ∨ isDigitOf 10 c = true → isSpace c = false := by
    decide +kernel
  have hblanks : ∀ c ∈ List.replicate (width - (intText x).length) (byte 32),
      isSpace c = true := by
    intro c hc
    rw [List.eq_of_mem_replicate hc]
    decide
  have hfront : ∀ c ∈ (intText x ++ rest).head?, isSpace c = false := fun c hc =>
    hnot c (head_intText x c hc)
  have hdrop := (takeWhile_append_eq hblanks hfront).2
  obtain ⟨hskip, hneg⟩ := skipSign_intText rest x
  obtain ⟨htake, hbehind⟩ := takeWhile_append_eq (isDigitOf_numeral x) hrest
  have hvalue := numeralValue_numeral (show 1 < 10 by decide) (by decide) 1 x.natAbs
  have hsigned : (if x < 0 then -(x.natAbs : ℤ) else x.natAbs) = x := by
    split_ifs <;> omega
  simp only [readInt, paddedText, List.leftpad, List.append_assoc, hdrop, hskip, hneg, htake,
    hbehind, hvalue, hsigned]

/-- A number in front of something that is no digit. -/
theorem selfDelimiting_paddedText (width : ℕ) {c : Byte} (hc : isDigitOf 10 c = false)
    (back : CString) : SelfDelimiting fun x => paddedText width x ++ c :: back := by
  have hend : ∀ s : CString, ∀ d ∈ (c :: back ++ s).head?, isDigitOf 10 d = false := by
    rintro s d ⟨⟩
    exact hc
  intro x y s t heq
  simp only [List.append_assoc] at heq
  have hread := congrArg readInt heq
  rw [readInt_paddedText _ _ (hend s), readInt_paddedText _ _ (hend t), Prod.mk.injEq] at hread
  obtain ⟨rfl, hback⟩ := hread
  exact ⟨rfl, List.append_cancel_left hback⟩

theorem paddedText_zero (x : ℤ) : paddedText 0 x = intText x := by
  simp [paddedText, List.leftpad]

theorem selfDelimiting_intText {c : Byte} (hc : isDigitOf 10 c = false) (back : CString) :
    SelfDelimiting fun x => intText x ++ c :: back := by
  simpa only [paddedText_zero] using selfDelimiting_paddedText 0 hc back

end Cs342.Library
