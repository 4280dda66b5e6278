import Mathlib.Data.Option.Basic
import Mathlib.Logic.Function.Basic

/-!
# Working on shared memory step by step

A function that works on shared memory reads and writes it bit by bit, and others may work on
it in between. `Access σ α` is what such a function has still to do, with a result in `α`; a
step changes the memory, and what comes next depends on what it has found. Following a
pointer that leads nowhere is a failure. `run` is the function when nobody comes in between.

Threads that are in the middle of their accesses are `Apart` when one that writes is alone at
its place. Then each access comes to what it would have come to in one step at its end.
-/

namespace Cs342.Library

inductive Access (σ α : Type) where
  | ret (a : α)
  | fail
  | step (change : σ → σ) (next : σ → Access σ α)

namespace Access

variable {σ α β : Type}

def bind : Access σ α → (α → Access σ β) → Access σ β
  | .ret a, f => f a
  | .fail, _ => .fail
  | .step change next, f => .step change fun s => (next s).bind f

instance : Monad (Access σ) where
  pure := .ret
  bind := .bind

/-- A read. -/
def get (f : σ → α) : Access σ α := .step id fun s => .ret (f s)

/-- A write. -/
def set (f : σ → σ) : Access σ Unit := .step f fun _ => .ret ()

/-- A read through a pointer. -/
def load (f : σ → Option α) : Access σ α :=
  .step id fun s =>
    match f s with
    | none => .fail
    | some a => .ret a

/-- A write through a pointer. -/
def store (f : σ → Option σ) : Access σ Unit :=
  .step (fun s => (f s).getD s) fun s => if (f s).isSome then .ret () else .fail

/-- All steps, one after another. -/
def run : Access σ α → σ → Option (α × σ)
  | .ret a, s => some (a, s)
  | .fail, _ => none
  | .step change next, s => (next s).run (change s)

variable {s t : σ} {a : α} {p : Access σ α}

@[simp] theorem run_pure : (pure a : Access σ α).run s = some (a, s) := rfl

theorem run_bind (p : Access σ α) (f : α → Access σ β) :
    (p >>= f).run s = (p.run s).bind fun r => (f r.1).run r.2 := by
  induction p generalizing s with
  | ret a => rfl
  | fail => rfl
  | step change next ih => exact ih s

theorem run_map (p : Access σ α) (f : α → β) :
    (f <$> p).run s = (p.run s).map fun r => (f r.1, r.2) := by
  rw [Option.map_eq_bind]
  exact run_bind p _

@[simp] theorem run_ite (c : Prop) [Decidable c] (p r : Access σ α) :
    (if c then p else r).run s = if c then p.run s else r.run s :=
  apply_ite (fun p => p.run s) c p r

@[simp] theorem run_get (f : σ → α) : (get f).run s = some (f s, s) := rfl

@[simp] theorem run_set (f : σ → σ) : (set f).run s = some ((), f s) := rfl

@[simp] theorem run_get_bind (f : σ → α) (k : α → Access σ β) :
    (get f >>= k).run s = (k (f s)).run s := rfl

@[simp] theorem run_set_bind (f : σ → σ) (k : Unit → Access σ β) :
    (set f >>= k).run s = (k ()).run (f s) := rfl

@[simp] theorem run_load (f : σ → Option α) : (load f).run s = (f s).map fun a => (a, s) := by
  simp only [load, run, id]
  cases f s <;> rfl

@[simp] theorem run_load_bind (f : σ → Option α) (k : α → Access σ β) : (load f >>= k).run s =
    match f s with
    | none => none
    | some a => (k a).run s := by
  change (Access.bind (load f) k).run s = _
  cases h : f s <;> simp [load, Access.bind, run, h]

@[simp] theorem run_store (f : σ → Option σ) : (store f).run s = (f s).map fun t => ((), t) := by
  simp only [store, run]
  cases f s <;> rfl

@[simp] theorem run_store_bind (f : σ → Option σ) (k : Unit → Access σ β) :
    (store f >>= k).run s =
      match f s with
      | none => none
      | some t => (k ()).run t := by
  change (Access.bind (store f) k).run s = _
  cases h : f s <;> simp [store, Access.bind, run, h]

/-- From `s` on the function changes nothing. -/
def Quiet (s : σ) : Access σ α → Prop
  | .ret _ | .fail => True
  | .step change next => change s = s ∧ (next s).Quiet s

theorem quiet_bind {f : α → Access σ β} (hp : p.Quiet s) (hf : ∀ a, (f a).Quiet s) :
    (p >>= f).Quiet s := by
  induction p with
  | ret a => exact hf a
  | fail => trivial
  | step change next ih => exact ⟨hp.1, ih s hp.2⟩

theorem quiet_map {f : α → β} (hp : p.Quiet s) : (f <$> p).Quiet s :=
  quiet_bind hp fun _ => trivial

@[simp] theorem quiet_pure : (pure a : Access σ α).Quiet s := trivial

@[simp] theorem quiet_get (f : σ → α) : (get f).Quiet s := ⟨rfl, trivial⟩

@[simp] theorem quiet_get_bind (f : σ → α) (k : α → Access σ β) :
    (get f >>= k).Quiet s ↔ (k (f s)).Quiet s :=
  and_iff_right rfl

theorem quiet_load (f : σ → Option α) : (load f).Quiet s := by
  refine ⟨rfl, ?_⟩
  cases h : f s <;> simp [h, Quiet]

@[simp] theorem quiet_ite (c : Prop) [Decidable c] (p r : Access σ α) :
    (if c then p else r).Quiet s ↔ if c then p.Quiet s else r.Quiet s := by
  split <;> rfl

end Access

/-! ## Threads side by side -/

/-- Where an access takes place, whether it may write there, and the whole of it. -/
structure Visit (κ σ α : Type) where
  place : κ
  writes : Bool
  access : Access σ α
  quiet : writes = false → ∀ s, access.Quiet s

namespace Visit

variable {κ σ α : Type}

def reader (place : κ) (access : Access σ α) (quiet : ∀ s, access.Quiet s) : Visit κ σ α :=
  ⟨place, false, access, fun _ => quiet⟩

def writer (place : κ) (access : Access σ α) : Visit κ σ α := ⟨place, true, access, nofun⟩

end Visit

variable {ι κ σ : Type} {α : ι → Type} {visit visit' : ∀ x, Option (Visit κ σ (α x))}
  {left : ∀ x, Option (Access σ (α x))} {settled now : κ → σ} {x : ι} {v : Visit κ σ (α x)}

/-- `left` is what the threads in the middle of a visit have still to do, and `now` the memory they
see; `settled` is the memory without the visits that have not come to their end. -/
structure Apart (visit : ∀ x, Option (Visit κ σ (α x))) (left : ∀ x, Option (Access σ (α x)))
    (settled now : κ → σ) : Prop where
  visits : ∀ x p, left x = some p → ∃ v ∈ visit x,
    p.run (now v.place) = v.access.run (settled v.place) ∧
      (v.access.Quiet (settled v.place) →
        now v.place = settled v.place ∧ p.Quiet (settled v.place))
  alone : ∀ x y, left x ≠ none → left y ≠ none → ∀ v ∈ visit x, ∀ w ∈ visit y, v.writes = true →
    w.place = v.place → y = x
  settled : ∀ k, (∀ x, left x ≠ none → ∀ v ∈ visit x, v.place = k → v.writes = false) →
    now k = settled k

namespace Apart

theorem start (visit : ∀ x, Option (Visit κ σ (α x))) (now : κ → σ) :
    Apart visit (fun _ => none) now now :=
  ⟨by simp, by simp, fun _ _ => rfl⟩

/-- What the threads outside would visit does not matter. -/
theorem congr (h : Apart visit left settled now)
    (hvisit : ∀ x, left x ≠ none → visit' x = visit x) : Apart visit' left settled now where
  visits x p hx := by
    rw [hvisit x (by simp [hx])]
    exact h.visits x p hx
  alone x y hx hy := by
    rw [hvisit x hx, hvisit y hy]
    exact h.alone x y hx hy
  settled k hk := h.settled k fun x hx v hv => hk x hx v (by rwa [hvisit x hx])

theorem visit_eq (h : Apart visit left settled now) {p : Access σ (α x)} (hx : left x = some p)
    (hv : v ∈ visit x) : p.run (now v.place) = v.access.run (settled v.place) ∧
      (v.access.Quiet (settled v.place) →
        now v.place = settled v.place ∧ p.Quiet (settled v.place)) := by
  obtain ⟨w, hw, hvisit⟩ := h.visits x p hx
  obtain rfl : w = v := Option.some.inj (hw.symm.trans hv)
  exact hvisit

/-- Next to a thread that is at `k` and does not leave it as it is nobody else is there. -/
theorem eq_of_writes (h : Apart visit left settled now) {y : ι} {w : Visit κ σ (α y)}
    (hx : left x ≠ none) (hv : v ∈ visit x) (hy : left y ≠ none) (hw : w ∈ visit y)
    (hplace : w.place = v.place) (hne : y ≠ x) : v.writes = false := by
  by_contra hwrites
  exact hne (h.alone x y hx hy v hv w hw (by simpa using hwrites) hplace)

variable [DecidableEq ι]

/-- A thread begins a visit: one that writes when nobody is there, and another one when nobody
writes there. -/
theorem enter (h : Apart visit left settled now) (hx : left x = none) (hv : v ∈ visit x)
    (hfree : ∀ y, left y ≠ none → ∀ w ∈ visit y, w.place = v.place →
      v.writes = false ∧ w.writes = false) :
    Apart visit (Function.update left x (some v.access)) settled now := by
  have hnow : now v.place = settled v.place := h.settled _ fun y hy w hw hplace =>
    (hfree y hy w hw hplace).2
  have hinside {y : ι} (hyx : y ≠ x) (hy : Function.update left x (some v.access) y ≠ none) :
      left y ≠ none := by rwa [Function.update_of_ne hyx] at hy
  constructor
  · intro y p hp
    rcases eq_or_ne y x with rfl | hyx
    · obtain rfl : v.access = p := by simpa using hp
      exact ⟨v, hv, by rw [hnow], fun hquiet => ⟨hnow, hquiet⟩⟩
    · exact h.visits y p (by rwa [Function.update_of_ne hyx] at hp)
  · intro y z hy hz w hw u hu hwrites hplace
    rcases eq_or_ne y x with rfl | hyx <;> rcases eq_or_ne z y with rfl | hzy
    · rfl
    · obtain rfl : w = v := Option.some.inj (hw.symm.trans hv)
      simp [(hfree z (hinside hzy hz) u hu hplace).1] at hwrites
    · rfl
    · rcases eq_or_ne z x with rfl | hzx
      · obtain rfl : u = v := Option.some.inj (hu.symm.trans hv)
        simp [(hfree y (hinside hyx hy) w hw hplace.symm).2] at hwrites
      · exact h.alone y z (hinside hyx hy) (hinside hzx hz) w hw u hu hwrites hplace
  · intro k hk
    refine h.settled k fun y hy w hw hplace => hk y ?_ w hw hplace
    have hyx : y ≠ x := by
      rintro rfl
      exact hy hx
    rwa [Function.update_of_ne hyx]

variable [DecidableEq κ]

/-- A thread makes a step of its visit. -/
theorem step (h : Apart visit left settled now) {change : σ → σ} {next : σ → Access σ (α x)}
    (hx : left x = some (.step change next)) (hv : v ∈ visit x) :
    Apart visit (Function.update left x (some (next (now v.place)))) settled
      (Function.update now v.place (change (now v.place))) := by
  obtain ⟨hrun, hquiet⟩ := h.visit_eq hx hv
  have hx' : left x ≠ none := by simp [hx]
  have hinside {y : ι} (hy : Function.update left x (some (next (now v.place))) y ≠ none) :
      left y ≠ none := by
    rcases eq_or_ne y x with rfl | hyx
    · exact hx'
    · rwa [Function.update_of_ne hyx] at hy
  -- a thread that only reads leaves everything as it is
  have hsame (hwrites : v.writes = false) :
      Function.update now v.place (change (now v.place)) = now := by
    obtain ⟨hnow, hchange, -⟩ := hquiet (v.quiet hwrites _)
    rw [hnow, hchange, ← hnow, Function.update_eq_self]
  constructor
  · intro y p hp
    rcases eq_or_ne y x with rfl | hyx
    · obtain rfl : next (now v.place) = p := by simpa using hp
      refine ⟨v, hv, by rwa [Function.update_self], fun hq => ?_⟩
      obtain ⟨hnow, hchange, hnext⟩ := hquiet hq
      rw [Function.update_self, hnow]
      exact ⟨hchange, hnext⟩
    · rw [Function.update_of_ne hyx] at hp
      obtain ⟨w, hw, hvisit⟩ := h.visits y p hp
      refine ⟨w, hw, ?_⟩
      rcases eq_or_ne w.place v.place with hplace | hplace
      · rwa [hsame (h.eq_of_writes hx' hv (by simp [hp]) hw hplace hyx)]
      · rwa [Function.update_of_ne hplace]
  · intro y z hy hz
    exact h.alone y z (hinside hy) (hinside hz)
  · intro k hk
    have hnow : now k = settled k := by
      refine h.settled k fun y hy w hw hplace => hk y ?_ w hw hplace
      rcases eq_or_ne y x with rfl | hyx
      · simp
      · rwa [Function.update_of_ne hyx]
    rcases eq_or_ne k v.place with rfl | hkv
    · rwa [hsame (hk x (by simp) v hv rfl)]
    · rwa [Function.update_of_ne hkv]

/-- A thread comes to the end of its visit, and what it has done becomes settled. -/
theorem leave (h : Apart visit left settled now) {a : α x} (hx : left x = some (.ret a))
    (hv : v ∈ visit x) (hvisit : ∀ y, y ≠ x → visit' y = visit y) :
    v.access.run (settled v.place) = some (a, now v.place) ∧
      Apart visit' (Function.update left x none)
        (Function.update settled v.place (now v.place)) now := by
  obtain ⟨hrun, hquiet⟩ := h.visit_eq hx hv
  have hx' : left x ≠ none := by simp [hx]
  have hne {y : ι} (hy : Function.update left x none y ≠ none) : y ≠ x := by
    rintro rfl
    simp at hy
  have hinside {y : ι} (hy : Function.update left x none y ≠ none) : left y ≠ none := by
    rwa [Function.update_of_ne (hne hy)] at hy
  have hsame (hwrites : v.writes = false) :
      Function.update settled v.place (now v.place) = settled := by
    rw [(hquiet (v.quiet hwrites _)).1, Function.update_eq_self]
  refine ⟨hrun.symm, ?_, ?_, ?_⟩
  · intro y p hp
    have hyx := hne (y := y) (by simp [hp])
    rw [Function.update_of_ne hyx] at hp
    rw [hvisit y hyx]
    obtain ⟨w, hw, hvisit⟩ := h.visits y p hp
    refine ⟨w, hw, ?_⟩
    rcases eq_or_ne w.place v.place with hplace | hplace
    · rwa [hsame (h.eq_of_writes hx' hv (by simp [hp]) hw hplace hyx)]
    · rwa [Function.update_of_ne hplace]
  · intro y z hy hz
    rw [hvisit y (hne hy), hvisit z (hne hz)]
    exact h.alone y z (hinside hy) (hinside hz)
  · intro k hk
    rcases eq_or_ne k v.place with rfl | hkv
    · rw [Function.update_self]
    · rw [Function.update_of_ne hkv]
      refine h.settled k fun y hy w hw hplace => ?_
      rcases eq_or_ne y x with rfl | hyx
      · obtain rfl : w = v := Option.some.inj (hw.symm.trans hv)
        exact absurd hplace.symm hkv
      · exact hk y (by rwa [Function.update_of_ne hyx]) w (by rwa [hvisit y hyx]) hplace

end Apart

end Cs342.Library
