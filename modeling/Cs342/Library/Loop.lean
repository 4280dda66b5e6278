import Mathlib.Order.Basic
import Mathlib.Data.Nat.Notation

/-!
# Loops with a variant

A `while (1)` loop is a round function that answers `none` where the program
breaks. The loop carries a variant that every completed round decreases, so
running it needs no fuel argument and no separate termination proof. `Rounds` is
the loop's own meaning, one constructor for the exit and one for a completed
round; `run` is the function that computes it.
-/

namespace Cs342.Library

variable {σ : Type*}

/-- A loop over states `σ`: one round, and the variant its rounds decrease. -/
structure Loop (σ : Type*) where
  body : σ → Option σ
  variant : σ → ℕ
  decreases : ∀ {s t}, body s = some t → variant t < variant s

namespace Loop

/-- The loop leaves `s` in state `t` after `n` rounds, the last one breaking. -/
inductive Rounds (L : Loop σ) : σ → ℕ → σ → Prop where
  | exit {s : σ} : L.body s = none → Rounds L s 1 s
  | next {s t u : σ} {n : ℕ} : L.body s = some t → Rounds L t n u → Rounds L s (n + 1) u

/-- At most `n` completed rounds from `s`. -/
def runFor (L : Loop σ) : ℕ → σ → σ
  | 0, s => s
  | n + 1, s =>
    match L.body s with
    | none => s
    | some t => L.runFor n t

/-- The state in which the loop breaks; the variant bounds the completed rounds. -/
def run (L : Loop σ) (s : σ) : σ := L.runFor (L.variant s) s

theorem runFor_rounds (L : Loop σ) (n : ℕ) (s : σ) (h : L.variant s ≤ n) :
    ∃ k, k ≤ n + 1 ∧ L.Rounds s k (L.runFor n s) := by
  induction n generalizing s with
  | zero =>
    refine ⟨1, by omega, .exit ?_⟩
    cases hb : L.body s with
    | none => rfl
    | some t => have := L.decreases hb; omega
  | succ n ih =>
    cases hb : L.body s with
    | none => exact ⟨1, by omega, by simpa [runFor, hb] using Rounds.exit hb⟩
    | some t =>
      have := L.decreases hb
      obtain ⟨k, hk, hr⟩ := ih t (by omega)
      exact ⟨k + 1, by omega, by simpa [runFor, hb] using Rounds.next hb hr⟩

/-- The loop breaks, after at most one round more than its variant. -/
theorem run_rounds (L : Loop σ) (s : σ) :
    ∃ k, k ≤ L.variant s + 1 ∧ L.Rounds s k (L.run s) :=
  L.runFor_rounds _ s (Nat.le_refl _)

theorem Rounds.body_eq_none {L : Loop σ} {s t : σ} {n : ℕ} (h : L.Rounds s n t) :
    L.body t = none := by
  induction h with
  | exit h => exact h
  | next _ _ ih => exact ih

/-- What one round preserves, the whole loop preserves. -/
theorem Rounds.induct {L : Loop σ} {s t : σ} {n : ℕ} (h : L.Rounds s n t) {I : σ → Prop}
    (hs : I s) (step : ∀ u v, I u → L.body u = some v → I v) : I t := by
  induction h with
  | exit => exact hs
  | next hb _ ih => exact ih (step _ _ hs hb)

theorem body_run (L : Loop σ) (s : σ) : L.body (L.run s) = none :=
  let ⟨_, _, h⟩ := L.run_rounds s
  h.body_eq_none

/-- What one round preserves, any number of rounds preserves. -/
theorem runFor_induct (L : Loop σ) {I : σ → Prop} {s : σ} (hs : I s)
    (step : ∀ u v, I u → L.body u = some v → I v) (n : ℕ) : I (L.runFor n s) := by
  induction n generalizing s with
  | zero => exact hs
  | succ n ih =>
    cases hb : L.body s with
    | none => simpa [runFor, hb] using hs
    | some t => simpa [runFor, hb] using ih (step s t hs hb)

/-- Two loops run alike where their bodies agree on what the first comes to. -/
theorem runFor_congr {L K : Loop σ} {P : σ → Prop}
    (hbody : ∀ s, (∀ t, L.body s = some t → P t) → K.body s = L.body s) {n : ℕ} {s : σ}
    (h : ∀ m ≤ n, P (L.runFor m s)) : K.runFor n s = L.runFor n s := by
  induction n generalizing s with
  | zero => rfl
  | succ n ih =>
    have hnext : ∀ t, L.body s = some t → P t := fun t ht => by
      simpa [runFor, ht] using h 1 (by omega)
    cases hb : L.body s with
    | none => rw [runFor, runFor, hbody s hnext, hb]
    | some t =>
      rw [runFor, runFor, hbody s hnext, hb]
      exact ih fun m hm => by simpa [runFor, hb] using h (m + 1) (by omega)

/-- The invariant rule for a loop. -/
theorem run_induct (L : Loop σ) {I : σ → Prop} {s : σ} (hs : I s)
    (step : ∀ u v, I u → L.body u = some v → I v) : I (L.run s) :=
  let ⟨_, _, h⟩ := L.run_rounds s
  h.induct hs step

end Loop

end Cs342.Library
