import Mathlib.Algebra.BigOperators.Group.Finset.Basic
import Mathlib.Algebra.BigOperators.Group.Finset.Piecewise
import Mathlib.Algebra.Order.BigOperators.Group.Finset
import Mathlib.Data.Nat.Find
import Cs342.Library.System

/-!
# Runs that come to rest

An infinite run of a system, in which nothing may happen for a while. It is fair when
some step changes the state as long as a step could; which one is left open, so
fairness to every party is more than is asked for. A measure that every changing step
decreases brings a fair run to rest, in a state that no step changes.
-/

namespace Cs342.Library

namespace System

variable {σ : Type*} {S : System σ} {r : ℕ → σ} {s t : σ}

/-- No step changes `s`. -/
def Quiet (S : System σ) (s : σ) : Prop := ∀ t, S.step s t → t = s

structure Run (S : System σ) (r : ℕ → σ) : Prop where
  start : S.init (r 0)
  next : ∀ n, S.step (r n) (r (n + 1)) ∨ r (n + 1) = r n

/-- While a step could change the state, one does so sooner or later. -/
def Fair (S : System σ) (r : ℕ → σ) : Prop :=
  ∀ n, ¬ S.Quiet (r n) → ∃ m, n ≤ m ∧ r (m + 1) ≠ r m

theorem Run.reachable (h : S.Run r) (n : ℕ) : S.Reachable (r n) := by
  induction n with
  | zero => exact .start h.start
  | succ n ih =>
    rcases h.next n with hstep | hstay
    · exact ih.next hstep
    · rwa [hstay]

/-- A step of a run that changes the state is a step of the system. -/
theorem Run.step_of_ne (h : S.Run r) {n : ℕ} (hne : r (n + 1) ≠ r n) :
    S.step (r n) (r (n + 1)) :=
  (h.next n).resolve_right hne

theorem eq_of_constant {n m : ℕ} (h : ∀ k, n ≤ k → k < m → r (k + 1) = r k) (hm : n ≤ m) :
    r m = r n := by
  induction m, hm using Nat.le_induction with
  | base => rfl
  | succ m hm ih => exact (h m hm m.lt_succ_self).trans (ih fun k hk hlt => h k hk (by omega))

/-- A fair run whose changing steps decrease a measure comes to rest. -/
theorem Run.settles (h : S.Run r) (fair : S.Fair r) (μ : σ → ℕ)
    (decreases : ∀ s t, S.Reachable s → S.step s t → t ≠ s → μ t < μ s) :
    ∃ n, S.Quiet (r n) ∧ ∀ m, n ≤ m → r m = r n := by
  -- by strong induction on the measure of the state from which on the run is looked at
  suffices ∀ k n, μ (r n) ≤ k → ∃ n, S.Quiet (r n) ∧ ∀ m, n ≤ m → r m = r n from
    this _ 0 le_rfl
  intro k
  induction k using Nat.strong_induction_on with
  | h k ih =>
    intro n hk
    by_cases hchange : ∃ m, n ≤ m ∧ r (m + 1) ≠ r m
    · classical
      -- the first change after `n`
      let m := Nat.find hchange
      obtain ⟨hm, hne⟩ := Nat.find_spec hchange
      have hsame : r m = r n := by
        refine eq_of_constant (fun j hj hlt => ?_) hm
        by_contra hc
        exact Nat.find_min hchange hlt ⟨hj, hc⟩
      have hlt := decreases _ _ (h.reachable m) (h.step_of_ne hne) hne
      rw [hsame] at hlt
      exact ih _ (hlt.trans_le hk) (m + 1) le_rfl
    · push Not at hchange
      refine ⟨n, ?_, fun m => eq_of_constant fun k hk _ => hchange k hk⟩
      by_contra hquiet
      obtain ⟨m, hm, hne⟩ := fair n hquiet
      exact hne (hchange m hm)

/-! ## Runs given by a list of actions -/

variable {α : Type*} {act : σ → α → Option σ} {init : σ → Prop}

/-- Take the actions in turn and stay where the last one leads; an action that is not enabled
is passed over. -/
def trace (act : σ → α → Option σ) (s : σ) : List α → ℕ → σ
  | [], _ => s
  | _ :: _, 0 => s
  | a :: as, n + 1 => trace act ((act s a).getD s) as n

theorem trace_zero (as : List α) : trace act s as 0 = s := by
  cases as <;> rfl

theorem trace_next (as : List α) (n : ℕ) :
    (ofAct init act).step (trace act s as n) (trace act s as (n + 1)) ∨
      trace act s as (n + 1) = trace act s as n := by
  induction as generalizing s n with
  | nil => exact .inr rfl
  | cons a as ih =>
    cases n with
    | zero =>
      simp only [trace, trace_zero]
      cases ha : act s a with
      | none => exact .inr rfl
      | some t => exact .inl ⟨a, ha⟩
    | succ n => exact ih n

theorem run_trace (h : init s) (as : List α) : (ofAct init act).Run (trace act s as) :=
  ⟨by rwa [trace_zero], trace_next as⟩

theorem trace_of_length_le (as : List α) {n : ℕ} (hn : as.length ≤ n) :
    trace act s as n = trace act s as as.length := by
  induction as generalizing s n with
  | nil => rfl
  | cons a as ih =>
    cases n with
    | zero => simp at hn
    | succ n => exact ih (by simpa using hn)

/-- A run that ends in a quiet state is fair. -/
theorem fair_trace {as : List α} (h : S.Quiet (trace act s as as.length)) :
    S.Fair (trace act s as) := by
  intro n hn
  by_contra hsame
  push Not at hsame
  have hend := eq_of_constant (fun k hk _ => hsame k hk) (Nat.le_add_left n as.length)
  rw [trace_of_length_le as (Nat.le_add_right _ _)] at hend
  exact hn (hend ▸ h)

end System

/-! ## Sums over all parties -/

open Finset

/-- Where one entry of a table is replaced, a sum over the table changes by that entry. -/
theorem sum_update {ι β M : Type*} [Fintype ι] [DecidableEq ι] [AddCommMonoid M] (g : ι → β)
    (i : ι) (x : β) (f : β → M) :
    ∑ k, f (Function.update g i x k) + f (g i) = ∑ k, f (g k) + f x := by
  rw [← add_sum_erase _ _ (mem_univ i), ← add_sum_erase _ (fun k => f (g k)) (mem_univ i)]
  have hrest : ∑ k ∈ univ.erase i, f (Function.update g i x k) = ∑ k ∈ univ.erase i, f (g k) :=
    sum_congr rfl fun k hk => by rw [Function.update_of_ne (ne_of_mem_erase hk)]
  rw [hrest, Function.update_self]
  ac_rfl

/-- A sum sinks where one entry pays one for each party, and the others rise by one at most. -/
theorem sum_lt_sum_of_pays {ι : Type*} [Fintype ι] [DecidableEq ι] {f g : ι → ℕ} (i : ι)
    (pays : g i + Fintype.card ι ≤ f i) (others : ∀ k ≠ i, g k ≤ f k + 1) :
    ∑ k, g k < ∑ k, f k := by
  have hrest : ∑ k ∈ univ.erase i, g k ≤ ∑ k ∈ univ.erase i, f k + (Fintype.card ι - 1) := by
    calc ∑ k ∈ univ.erase i, g k
        ≤ ∑ k ∈ univ.erase i, (f k + 1) := sum_le_sum fun k hk => others k (ne_of_mem_erase hk)
      _ = ∑ k ∈ univ.erase i, f k + (Fintype.card ι - 1) := by
          rw [sum_add_distrib, ← card_eq_sum_ones, card_erase_of_mem (mem_univ i), card_univ]
  have hpos : 0 < Fintype.card ι := Fintype.card_pos_iff.mpr ⟨i⟩
  rw [← add_sum_erase _ g (mem_univ i), ← add_sum_erase _ f (mem_univ i)]
  omega

end Cs342.Library
