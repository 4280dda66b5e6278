import Mathlib.Data.List.FinRange
import Mathlib.Logic.Relation
import Mathlib.Order.Fin.Basic

/-!
# Scans for a best position

A scan goes through the positions of an array in order and moves to one whose value is
below the key it keeps of the best one so far. With the value as the key it ends at the
first minimum. In general it ends where a chain of moves ends, each to the first later
position whose value is below the key of the one before.
-/

namespace Cs342.Library

variable {α : Type*} [LinearOrder α] {n : ℕ} (key value : Fin n → α)

/-- Go through `l`, from the best position so far and its key. -/
def scan (l : List (Fin n)) (best : Fin n × α) : Fin n × α :=
  l.foldl (fun best i => if value i < best.2 then (i, key i) else best) best

/-- The scan moves from `b` to `i`. -/
def Moves (b i : Fin n) : Prop :=
  b < i ∧ value i < key b ∧ ∀ j, b < j → j < i → key b ≤ value j

/-- The scan stays at `r`. -/
def Settled (r : Fin n) : Prop := ∀ i, r < i → key r ≤ value i

/-- The first of the positions with the least value. -/
def FirstMin (m : Fin n) : Prop := (∀ i, value m ≤ value i) ∧ ∀ i < m, value m < value i

variable {key value} {l : List (Fin n)} {a b c i m r : Fin n}

theorem Moves.unique (h : Moves key value b i) (h' : Moves key value b c) : i = c := by
  rcases lt_trichotomy i c with hlt | heq | hlt
  · exact absurd h.2.1 (h'.2.2 i h.1 hlt).not_gt
  · exact heq
  · exact absurd h'.2.1 (h.2.2 c h'.1 hlt).not_gt

theorem FirstMin.unique (h : FirstMin value m) (h' : FirstMin value r) : m = r := by
  rcases lt_trichotomy m r with hlt | heq | hlt
  · exact absurd (h'.2 m hlt) (h.1 r).not_gt
  · exact heq
  · exact absurd (h.2 r hlt) (h'.1 m).not_gt

/-- From `b` with the positions up to `c` passed, a scan of the others ends where the moves
from `b` end. -/
theorem scan_eq_iff (hl : l.Pairwise (· < ·)) (hmem : ∀ i, i ∈ l ↔ c < i) (hbc : b ≤ c)
    (hpassed : ∀ j, b < j → j ≤ c → key b ≤ value j) :
    (scan key value l (b, key b)).1 = r ↔
      Relation.ReflTransGen (Moves key value) b r ∧ Settled key value r := by
  induction l generalizing b c with
  | nil =>
    have hsettled : Settled key value b := fun i hi =>
      hpassed i hi (not_lt.mp fun hci => by simpa using (hmem i).mpr hci)
    constructor
    · rintro rfl
      exact ⟨.refl, hsettled⟩
    · rintro ⟨hreach, -⟩
      rcases hreach.cases_head with heq | ⟨i, hmove, -⟩
      · exact heq
      · exact absurd hmove.2.1 (hsettled i hmove.1).not_gt
  | cons i l ih =>
    obtain ⟨hi, hl⟩ := List.pairwise_cons.mp hl
    have hci : c < i := (hmem i).mp List.mem_cons_self
    have hrest (j : Fin n) : j ∈ l ↔ i < j := by
      refine ⟨hi j, fun hij => ?_⟩
      have hj := (hmem j).mpr (hci.trans hij)
      exact (List.mem_cons.mp hj).resolve_left hij.ne'
    have hbetween (j : Fin n) (hbj : b < j) (hji : j < i) : key b ≤ value j := by
      refine hpassed j hbj (not_lt.mp fun hcj => ?_)
      rcases List.mem_cons.mp ((hmem j).mpr hcj) with heq | hj
      · exact hji.ne heq
      · exact hji.not_gt (hi j hj)
    by_cases hlt : value i < key b
    · have hmove : Moves key value b i := ⟨hbc.trans_lt hci, hlt, hbetween⟩
      have hscan : scan key value (i :: l) (b, key b) = scan key value l (i, key i) := by
        simp [scan, hlt]
      rw [hscan, ih hl hrest le_rfl fun j hij hji => absurd hij hji.not_gt]
      refine and_congr_left fun hsettled => ⟨.head hmove, fun hreach => ?_⟩
      rcases hreach.cases_head with rfl | ⟨k, hk, hreach⟩
      · exact absurd hlt (hsettled i hmove.1).not_gt
      · rwa [hmove.unique hk]
    · have hscan : scan key value (i :: l) (b, key b) = scan key value l (b, key b) := by
        simp [scan, hlt]
      rw [hscan]
      refine ih hl hrest (hbc.trans hci.le) fun j hbj hji => ?_
      rcases hji.lt_or_eq with hji | rfl
      · exact hbetween j hbj hji
      · exact not_lt.mp hlt

/-- A scan may leave out the position it starts from. -/
theorem scan_finRange {zero : Fin n} (hzero : zero.val = 0) :
    scan key value (List.finRange n) (zero, key zero) =
      scan key value ((List.finRange n).drop 1) (zero, key zero) := by
  cases n with
  | zero => exact zero.elim0
  | succ n =>
    obtain rfl : zero = 0 := Fin.ext hzero
    simp [scan, List.finRange_succ]

/-- A scan of all positions from the first one on. -/
theorem scan_drop_eq_iff {zero : Fin n} (hzero : zero.val = 0) :
    (scan key value ((List.finRange n).drop 1) (zero, key zero)).1 = r ↔
      Relation.ReflTransGen (Moves key value) zero r ∧ Settled key value r := by
  cases n with
  | zero => exact zero.elim0
  | succ n =>
    obtain rfl : zero = 0 := Fin.ext hzero
    refine scan_eq_iff ((List.pairwise_lt_finRange _).sublist (List.drop_sublist _ _))
      (fun i => ?_) le_rfl fun j hj hj' => absurd hj hj'.not_gt
    simp [List.finRange_succ, Fin.exists_succ_eq, Fin.pos_iff_ne_zero]

/-- A position is reached if its value is below the key of each one reached before it. -/
theorem reaches_of_lt (ham : a ≤ m) (h : ∀ b, Relation.ReflTransGen (Moves key value) a b →
    b < m → value m < key b) : Relation.ReflTransGen (Moves key value) a m := by
  induction hd : m.val - a.val using Nat.strong_induction_on generalizing a with
  | _ d ih =>
    rcases ham.eq_or_lt with rfl | ham
    · exact .refl
    · have hex : ∃ i, a < i ∧ value i < key a := ⟨m, ham, h a .refl ham⟩
      obtain ⟨hai, hlt⟩ := Fin.find_spec hex
      have him : Fin.find _ hex ≤ m := not_lt.mp fun hm => Fin.find_min hex hm ⟨ham, h a .refl ham⟩
      have hmove : Moves key value a (Fin.find _ hex) := by
        refine ⟨hai, hlt, fun j haj hji => not_lt.mp fun hj => ?_⟩
        exact Fin.find_min hex hji ⟨haj, hj⟩
      refine .head hmove (ih _ ?_ him (fun b hb => h b (.head hmove hb)) rfl)
      rw [Fin.lt_def] at hai ham
      rw [Fin.le_def] at him
      omega

end Cs342.Library
