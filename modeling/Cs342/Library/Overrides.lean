import Mathlib.Data.List.Induction

/-!
# Settings that replace each other

Settings are applied one after the other. Each of them is of some kind: settings of different
kinds do not interfere, and of two of one kind the later one replaces the earlier one. So only
the last one of each kind counts, wherever it stands.
-/

namespace Cs342.Library

structure Overrides (σ ι κ : Type*) where
  apply : σ → ι → σ
  kind : ι → κ
  comm : ∀ s a b, kind a ≠ kind b → apply (apply s a) b = apply (apply s b) a
  replace : ∀ s a b, kind a = kind b → apply (apply s a) b = apply s b

namespace Overrides

variable {σ ι κ : Type*} (O : Overrides σ ι κ)

def run (s : σ) (l : List ι) : σ := l.foldl O.apply s

section

variable {O} {s : σ} {l : List ι} {a : ι}

theorem run_concat : O.run s (l ++ [a]) = O.apply (O.run s l) a := by
  rw [run, List.foldl_append]
  rfl

/-- A setting in front of settings of other kinds may as well stand behind them. -/
theorem run_apply (h : ∀ b ∈ l, O.kind b ≠ O.kind a) :
    O.run (O.apply s a) l = O.apply (O.run s l) a := by
  induction l generalizing s with
  | nil => rfl
  | cons b l ih =>
    have hb := h b List.mem_cons_self
    show O.run (O.apply (O.apply s a) b) l = O.apply (O.run (O.apply s b) l) a
    rw [O.comm s a b (Ne.symm hb)]
    exact ih fun c hc => h c (List.mem_cons_of_mem _ hc)

end

variable [DecidableEq κ]

/-- The last setting of a kind. -/
def last (k : κ) (l : List ι) : Option ι := (l.filter fun a => O.kind a = k).getLast?

/-- The settings of other kinds. -/
def others (k : κ) (l : List ι) : List ι := l.filter fun a => O.kind a ≠ k

variable {O} {s : σ} {l l' : List ι} {a b : ι} {k : κ}

theorem last_concat : O.last k (l ++ [a]) = if O.kind a = k then some a else O.last k l := by
  rw [last, List.filter_append]
  by_cases hk : O.kind a = k <;> simp [hk, last]

theorem others_concat :
    O.others k (l ++ [a]) = if O.kind a = k then O.others k l else O.others k l ++ [a] := by
  rw [others, List.filter_append]
  by_cases hk : O.kind a = k <;> simp [hk, others]

theorem last_isSome (h : a ∈ l) : ∃ b, O.last (O.kind a) l = some b := by
  have hmem : a ∈ l.filter fun b => O.kind b = O.kind a := List.mem_filter.mpr ⟨h, by simp⟩
  exact ⟨_, List.getLast?_eq_some_getLast (List.ne_nil_of_mem hmem)⟩

theorem last_others (j : κ) : O.last j (O.others k l) = if j = k then none else O.last j l := by
  induction l using List.reverseRecOn with
  | nil => simp [last, others]
  | append_singleton l a ih =>
    rw [others_concat, last_concat]
    by_cases hk : O.kind a = k
    · rw [if_pos hk, ih, hk]
      by_cases hjk : j = k
      · rw [if_pos hjk, if_pos hjk]
      · rw [if_neg hjk, if_neg hjk, if_neg (Ne.symm hjk)]
    · rw [if_neg hk, last_concat, ih]
      by_cases hjk : j = k
      · rw [if_pos hjk, if_neg (hjk ▸ hk), if_pos hjk]
      · rw [if_neg hjk, if_neg hjk]

/-- In front of a setting the others of its kind do not count. -/
theorem apply_run (s : σ) (l : List ι) (a : ι) :
    O.apply (O.run s l) a = O.apply (O.run s (O.others (O.kind a) l)) a := by
  induction l generalizing s with
  | nil => rfl
  | cons b l ih =>
    show O.apply (O.run (O.apply s b) l) a = _
    rw [ih]
    by_cases hkind : O.kind b = O.kind a
    · have hother : ∀ c ∈ O.others (O.kind a) l, O.kind c ≠ O.kind b := by
        intro c hc
        rw [hkind]
        simpa using (List.mem_filter.mp hc).2
      have hdrop : O.others (O.kind a) (b :: l) = O.others (O.kind a) l :=
        List.filter_cons_of_neg (by simpa using hkind)
      rw [run_apply hother, O.replace _ _ _ hkind, hdrop]
    · have hkeep : O.others (O.kind a) (b :: l) = b :: O.others (O.kind a) l :=
        List.filter_cons_of_pos (by simpa using hkind)
      rw [hkeep]
      rfl

/-- The last setting of its kind may as well be the last of all, and the only one of its kind. -/
theorem run_eq_apply (h : O.last (O.kind a) l = some a) :
    O.run s l = O.apply (O.run s (O.others (O.kind a) l)) a := by
  induction l using List.reverseRecOn with
  | nil => simp [last] at h
  | append_singleton l b ih =>
    rw [last_concat] at h
    rw [run_concat, others_concat]
    by_cases hkind : O.kind b = O.kind a
    · rw [if_pos hkind] at h
      obtain rfl := Option.some.inj h
      rw [if_pos rfl, apply_run]
    · rw [if_neg hkind] at h
      rw [if_neg hkind, ih h, run_concat, O.comm _ _ _ (Ne.symm hkind)]

/-- Only the last setting of each kind counts. -/
theorem run_congr (h : ∀ k, O.last k l = O.last k l') : O.run s l = O.run s l' := by
  induction hn : l.length using Nat.strongRecOn generalizing l l' with
  | ind n ih =>
    rcases List.eq_nil_or_concat l with rfl | ⟨front, a, rfl⟩
    · have hnil : l' = [] := by
        by_contra hne
        obtain ⟨b, hb⟩ := List.exists_mem_of_ne_nil l' hne
        obtain ⟨c, hc⟩ := last_isSome (O := O) hb
        rw [← h, last] at hc
        simp at hc
      rw [hnil]
    · rw [List.concat_eq_append] at *
      have hlast : O.last (O.kind a) (front ++ [a]) = some a := by rw [last_concat, if_pos rfl]
      have hlast' : O.last (O.kind a) l' = some a := (h _).symm.trans hlast
      rw [run_eq_apply hlast, run_eq_apply hlast']
      congr 1
      refine ih _ ?_ (fun k => ?_) rfl
      · rw [← hn, others_concat, if_pos rfl, List.length_append]
        exact Nat.lt_succ_of_le (List.length_filter_le _ _)
      · rw [last_others, last_others, h]

end Overrides

end Cs342.Library
