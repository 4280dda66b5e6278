import Mathlib.Logic.Relation

/-!
# Transition systems

States, the states a run may begin in, and one step. Every safety result goes
through `Reachable.invariant`: what holds at the start and is kept by each step
taken from a reachable state holds in every reachable state.
-/

namespace Cs342.Library

variable {σ : Type*}

structure System (σ : Type*) where
  init : σ → Prop
  step : σ → σ → Prop

namespace System

/-- `t` lies on some continuation of a run that has reached `s`. -/
abbrev Steps (S : System σ) : σ → σ → Prop := Relation.ReflTransGen S.step

def Reachable (S : System σ) (s : σ) : Prop := ∃ s₀, S.init s₀ ∧ S.Steps s₀ s

variable {S : System σ} {s t : σ}

theorem Reachable.start (h : S.init s) : S.Reachable s := ⟨s, h, .refl⟩

theorem Reachable.next (h : S.Reachable s) (st : S.step s t) : S.Reachable t :=
  let ⟨s₀, h₀, hs⟩ := h
  ⟨s₀, h₀, hs.tail st⟩

theorem Reachable.steps (h : S.Reachable s) (st : S.Steps s t) : S.Reachable t :=
  let ⟨s₀, h₀, hs⟩ := h
  ⟨s₀, h₀, hs.trans st⟩

/-- A step keeps `I` along any continuation, so the continuation keeps it. -/
theorem Steps.invariant {I : σ → Prop} (h : S.Steps s t) (hs : I s)
    (step : ∀ u v, S.Steps s u → I u → S.step u v → I v) : I t := by
  induction h with
  | refl => exact hs
  | tail hu st ih => exact step _ _ hu ih st

/-- The invariant rule; the step may use that the state before it is reachable. -/
theorem Reachable.invariant {I : σ → Prop} (h : S.Reachable s) (init : ∀ s, S.init s → I s)
    (step : ∀ s t, S.Reachable s → I s → S.step s t → I t) : I s := by
  obtain ⟨s₀, h₀, hs⟩ := h
  exact hs.invariant (init _ h₀) fun u v hu iu st => step u v ⟨s₀, h₀, hu⟩ iu st

/-- The refinement rule: `f` maps runs of `S` to runs of `T`, with stuttering allowed. -/
theorem Reachable.simulate {τ : Type*} {T : System τ} {f : σ → τ} (h : S.Reachable s)
    (init : ∀ s, S.init s → T.init (f s))
    (step : ∀ s t, S.Reachable s → S.step s t → T.Steps (f s) (f t)) : T.Reachable (f s) :=
  h.invariant (I := fun s => T.Reachable (f s)) (fun s h₀ => .start (init s h₀))
    fun s t hr hs st => hs.steps (step s t hr st)

/-! ## Systems of enabled actions -/

variable {α : Type*}

/-- The system in which action `a` is enabled at `s` when `act s a` is a state. -/
def ofAct (init : σ → Prop) (act : σ → α → Option σ) : System σ where
  init := init
  step s t := ∃ a, act s a = some t

/-- Take action `a` at `s` only when `C s a` holds. -/
def guarded (act : σ → α → Option σ) (C : σ → α → Prop) [∀ s a, Decidable (C s a)] (s : σ) (a : α) :
    Option σ :=
  if C s a then act s a else none

theorem guarded_eq_some {act : σ → α → Option σ} {C : σ → α → Prop} [∀ s a, Decidable (C s a)]
    {a : α} : guarded act C s a = some t ↔ C s a ∧ act s a = some t := by
  by_cases h : C s a <;> simp [guarded, h]

/-- A run of guarded actions is a run. -/
theorem Reachable.of_guarded {init : σ → Prop} {act : σ → α → Option σ} {C : σ → α → Prop}
    [∀ s a, Decidable (C s a)] (h : (ofAct init (guarded act C)).Reachable s) :
    (ofAct init act).Reachable s :=
  h.invariant (fun _ h₀ => .start h₀) fun _ _ _ hr st =>
    hr.next (st.imp fun _ ha => (guarded_eq_some.mp ha).2)

/-- Perform a list of actions, all of which must be enabled in turn. -/
def perform (act : σ → α → Option σ) : List α → σ → Option σ
  | [], s => some s
  | a :: as, s =>
    match act s a with
    | none => none
    | some t => perform act as t

theorem steps_of_perform {init : σ → Prop} {act : σ → α → Option σ} {as : List α} {s t : σ}
    (h : perform act as s = some t) : (ofAct init act).Steps s t := by
  induction as generalizing s with
  | nil => obtain rfl := Option.some.inj h; exact .refl
  | cons a as ih =>
    cases ha : act s a with
    | none => simp [perform, ha] at h
    | some u => exact .head ⟨a, ha⟩ (ih (by simpa [perform, ha] using h))

theorem exists_perform_of_steps {init : σ → Prop} {act : σ → α → Option σ} {s t : σ}
    (h : (ofAct init act).Steps s t) : ∃ as, perform act as s = some t := by
  induction h using Relation.ReflTransGen.head_induction_on with
  | refl => exact ⟨[], rfl⟩
  | head st _ ih =>
    obtain ⟨a, ha⟩ := st
    obtain ⟨as, has⟩ := ih
    exact ⟨a :: as, by rw [perform, ha]; exact has⟩

/-! ## Runs as lists of actions -/

/-- Every state of the run satisfies `P`; a run ends at an action that is not enabled. -/
def Always (act : σ → α → Option σ) (P : σ → Prop) (s : σ) : List α → Prop
  | [] => P s
  | a :: as => P s ∧ ∀ t, act s a = some t → Always act P t as

/-- Every action of the run is taken in a state that allows it. -/
def Meets (act : σ → α → Option σ) (C : σ → α → Prop) (s : σ) : List α → Prop
  | [] => True
  | a :: as => ∀ t, act s a = some t → C s a ∧ Meets act C t as

variable {act : σ → α → Option σ} {C : σ → α → Prop} {I P : σ → Prop} {as : List α}

theorem Always.start (h : Always act P s as) : P s := by
  cases as with
  | nil => exact h
  | cons a as => exact h.1

/-- The state in which a run ends is one of its states. -/
theorem Always.of_perform (h : Always act P s as) (ht : perform act as s = some t) : P t := by
  induction as generalizing s with
  | nil => exact Option.some.inj ht ▸ h
  | cons a as ih =>
    cases ha : act s a with
    | none => simp [System.perform, ha] at ht
    | some u => exact ih (h.2 u ha) (by simpa [System.perform, ha] using ht)

theorem Meets.of_mem (h : ∀ a ∈ as, ∀ s, C s a) (s : σ) : Meets act C s as := by
  induction as generalizing s with
  | nil => trivial
  | cons a as ih => exact fun t _ => ⟨h a (by simp) s, ih (fun b hb => h b (by simp [hb])) t⟩

/-- A run of guarded actions meets their guards. -/
theorem Meets.of_guarded [∀ s a, Decidable (C s a)] (h : perform (guarded act C) as s = some t) :
    Meets act C s as := by
  induction as generalizing s with
  | nil => trivial
  | cons a as ih =>
    cases ha : guarded act C s a with
    | none => simp [System.perform, ha] at h
    | some u =>
      obtain ⟨hC, hact⟩ := guarded_eq_some.mp ha
      intro v hv
      obtain rfl := Option.some.inj (hact.symm.trans hv)
      exact ⟨hC, ih (by simpa [System.perform, ha] using h)⟩

/-- The condition holds of an action in the middle of a run. -/
theorem Meets.of_perform {a : α} {bs : List α} {u : σ} (h : Meets act C s (as ++ a :: bs))
    (ht : perform act as s = some t) (ha : act t a = some u) : C t a := by
  induction as generalizing s with
  | nil =>
    obtain rfl := Option.some.inj ht
    exact (h u ha).1
  | cons b as ih =>
    cases hb : act s b with
    | none => simp [System.perform, hb] at ht
    | some v => exact ih (h v hb).2 (by simpa [System.perform, hb] using ht)

/-- The run rule: an invariant that the allowed actions keep holds in every state. -/
theorem Meets.always (h : Meets act C s as) (hs : I s)
    (step : ∀ s a t, I s → C s a → act s a = some t → I t) (hP : ∀ s, I s → P s) :
    Always act P s as := by
  induction as generalizing s with
  | nil => exact hP s hs
  | cons a as ih =>
    refine ⟨hP s hs, fun t ht => ?_⟩
    obtain ⟨hC, h⟩ := h t ht
    exact ih h (step s a t hs hC ht)

/-- The same for the state in which the run ends. -/
theorem Meets.perform (h : Meets act C s as) (hs : I s)
    (step : ∀ s a t, I s → C s a → act s a = some t → I t) (ht : perform act as s = some t) :
    I t := by
  induction as generalizing s with
  | nil => exact Option.some.inj ht ▸ hs
  | cons a as ih =>
    cases ha : act s a with
    | none => simp [System.perform, ha] at ht
    | some u =>
      obtain ⟨hC, h⟩ := h u ha
      exact ih h (step s a u hs hC ha) (by simpa [System.perform, ha] using ht)

/-- Conversely, what holds in every state tells which actions were taken. -/
theorem Always.meets (h : Always act P s as) (hs : I s)
    (step : ∀ s a t, I s → act s a = some t → I t)
    (hC : ∀ s a t, I s → act s a = some t → P t → C s a) : Meets act C s as := by
  induction as generalizing s with
  | nil => trivial
  | cons a as ih =>
    intro t ht
    have hrest := h.2 t ht
    exact ⟨hC s a t hs ht hrest.start, ih hrest (step s a t hs ht)⟩

/-- In a run whose actions satisfy `D`, and where then one step decides whether `P` is kept: it
stays in `P` exactly when it starts there and takes actions that satisfy `C`. -/
theorem Meets.always_iff {D : σ → α → Prop} (hD : Meets act D s as) (hs : I s)
    (step : ∀ s a t, I s → D s a → act s a = some t → I t)
    (iff : ∀ s a t, I s → P s → D s a → act s a = some t → (P t ↔ C s a)) :
    Always act P s as ↔ P s ∧ Meets act C s as := by
  induction as generalizing s with
  | nil => exact (and_iff_left trivial).symm
  | cons a as ih =>
    refine and_congr_right fun hP => forall_congr' fun t => imp_congr_right fun ht => ?_
    obtain ⟨ha, hD⟩ := hD t ht
    rw [ih hD (step s a t hs ha ht), iff s a t hs hP ha ht]

/-- Two conditions that agree in the states of a run are met by the same runs. -/
theorem meets_congr {D : σ → α → Prop} (hs : I s)
    (step : ∀ s a t, I s → D s a → act s a = some t → I t)
    (iff : ∀ s a, I s → (C s a ↔ D s a)) : Meets act C s as ↔ Meets act D s as := by
  induction as generalizing s with
  | nil => exact .rfl
  | cons a as ih =>
    refine forall_congr' fun t => imp_congr_right fun ht => ?_
    rw [iff s a hs]
    exact and_congr_right fun hD => ih (step s a t hs hD ht)

/-- What the actions of a run show, in order. -/
def collect {β : Type*} (act : σ → α → Option σ) (f : σ → α → List β) : List α → σ → List β
  | [], _ => []
  | a :: as, s =>
    f s a ++
      match act s a with
      | none => []
      | some t => collect act f as t

/-- What every action keeps, of the state and of what the run has shown so far, holds at the end
of the run of all that it shows. -/
theorem collect_invariant {β : Type*} {f : σ → α → List β} {J : σ → List β → Prop}
    (hs : J s []) (step : ∀ s a t shown, J s shown → act s a = some t → J t (shown ++ f s a))
    (ht : perform act as s = some t) : J t (collect act f as s) := by
  suffices ∀ shown, J s shown → J t (shown ++ collect act f as s) from this [] hs
  clear hs
  intro shown hJ
  induction as generalizing s shown with
  | nil =>
    obtain rfl := Option.some.inj ht
    simpa [collect] using hJ
  | cons a as ih =>
    cases ha : act s a with
    | none => simp [System.perform, ha] at ht
    | some u =>
      simp only [collect, ha, ← List.append_assoc]
      exact ih (by simpa [System.perform, ha] using ht) _ (step s a u shown hJ ha)

/-- A lane that is fed at its end and emptied at its front gives back, over a whole run, what it
held and then what it was fed, in order. -/
theorem collect_lane {β : Type*} {fed taken : σ → α → List β} {lane : σ → List β} (hs : I s)
    (step : ∀ s a t, I s → act s a = some t → I t)
    (law : ∀ s a t, I s → act s a = some t → taken s a ++ lane t = lane s ++ fed s a)
    (ht : perform act as s = some t) :
    collect act taken as s ++ lane t = lane s ++ collect act fed as s := by
  induction as generalizing s with
  | nil =>
    obtain rfl := Option.some.inj ht
    simp [collect]
  | cons a as ih =>
    cases ha : act s a with
    | none => simp [System.perform, ha] at ht
    | some u =>
      have hrest := ih (step s a u hs ha) (by simpa [System.perform, ha] using ht)
      have hfirst := law s a u hs ha
      simp only [collect, ha]
      calc taken s a ++ collect act taken as u ++ lane t
          = taken s a ++ (lane u ++ collect act fed as u) := by rw [List.append_assoc, hrest]
        _ = lane s ++ (fed s a ++ collect act fed as u) := by
          rw [← List.append_assoc, hfirst, List.append_assoc]

end System

end Cs342.Library
