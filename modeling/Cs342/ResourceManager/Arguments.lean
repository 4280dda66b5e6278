import Cs342.ResourceManager.Conservation
import Cs342.ResourceManager.Ints

/-!
# Calls with arbitrary arguments

The library as such: any vector may be passed to any call, and a claim may come at any
time. A session is what remains of this when the application keeps its discipline. The
checks compare from above only, so a negative entry passes them, and a flag other than
0 and 1 switches off the waiting loops: the tables stay within what exists as long as
no call that passes makes use of either. Without claims every `need` row is zero, so a
request is refused as soon as it asks for anything.

`call` takes the tables for integers and `callInt` for `int`s. They are the same as long
as no call computes a value outside of the range, which in a session none does.
-/

namespace Cs342.ResourceManager

open Library Manager

/-- What is passed to `rm_init`, without any promise, and the handles of the threads. -/
structure Setup where
  pCount : ℤ
  rCount : ℤ
  rExist : ℕ → ℤ
  avoid : ℤ
  handle : Fin pCount.toNat → Handle

namespace Sys

variable {N M : ℕ}

/-- One action of thread `t`, on any vector. -/
def call (handle : Fin N → Handle) (s : Sys N M) : Fin N × Call M → Option (Sys N M)
  | (t, .claim v) =>
    if s.threads t = .running then
      (s.rm.row (handle t)).map fun tid =>
        { s with rm := (s.rm.rmClaim tid v).2, claimed := Function.update s.claimed t true }
    else none
  | (t, .request v) =>
    if s.threads t = .running then
      (s.rm.row (handle t)).map fun tid =>
        { s with requested := Function.update s.requested t true }.settle t v
          (s.rm.rmRequest tid v)
    else none
  | (t, .recheck) =>
    match s.threads t with
    | .running => none
    | .blocked v _ => (s.rm.row (handle t)).map fun tid => s.settle t v (s.rm.tryGrant tid v)
  | (t, .release v) =>
    if s.threads t = .running then
      (s.rm.row (handle t)).map fun tid =>
        let (_, cvs, rm) := s.rm.rmRelease tid v
        { s with
          rm := rm
          threads := fun i => if cvs i then (s.threads i).signal else s.threads i }
    else none

/-- The same in `int`s. -/
def callInt (handle : Fin N → Handle) (s : Sys N M) : Fin N × Call M → Option (Sys N M)
  | (t, .claim v) =>
    if s.threads t = .running then
      (s.rm.row (handle t)).map fun tid =>
        { s with rm := (s.rm.rmClaim tid v).2, claimed := Function.update s.claimed t true }
    else none
  | (t, .request v) =>
    if s.threads t = .running then
      (s.rm.row (handle t)).map fun tid =>
        { s with requested := Function.update s.requested t true }.settle t v
          (s.rm.rmRequestInt tid v)
    else none
  | (t, .recheck) =>
    match s.threads t with
    | .running => none
    | .blocked v _ => (s.rm.row (handle t)).map fun tid => s.settle t v (s.rm.tryGrantInt tid v)
  | (t, .release v) =>
    if s.threads t = .running then
      (s.rm.row (handle t)).map fun tid =>
        let (_, cvs, rm) := s.rm.rmReleaseInt tid v
        { s with
          rm := rm
          threads := fun i => if cvs i then (s.threads i).signal else s.threads i }
    else none

/-- What the application promises in a session. -/
def Disciplined (s : Sys N M) : Fin N × Call M → Prop
  | (t, .claim v) => s.claimed t = false ∧ s.requested t = false ∧ ∀ j, 0 ≤ v j
  | (_, .request v) | (_, .release v) => ∀ j, 0 ≤ v j
  | (_, .recheck) => True

instance (s : Sys N M) : DecidablePred s.Disciplined
  | (_, .claim _) => inferInstanceAs (Decidable (_ ∧ _ ∧ ∀ _, _))
  | (_, .request _) => inferInstanceAs (Decidable (∀ _, _))
  | (_, .release _) => inferInstanceAs (Decidable (∀ _, _))
  | (_, .recheck) => .isTrue trivial

/-- The actions of a session are the disciplined calls. -/
theorem act_eq_guarded (handle : Fin N → Handle) (s : Sys N M) (a : Fin N × Call M) :
    s.act handle a = System.guarded (call handle) Disciplined s a := by
  obtain ⟨t, c⟩ := a
  cases c with
  | claim v =>
    by_cases hrun : s.threads t = .running <;> by_cases hd : s.Disciplined (t, .claim v)
    · rw [System.guarded, if_pos hd]
      obtain ⟨hc, hr, hv⟩ := hd
      simp [act, call, hrun, hc, hr, hv]
    · rw [System.guarded, if_neg hd, act, if_neg fun h => hd h.2]
    · simp [act, System.guarded, call, hrun]
    · simp [act, System.guarded, call, hrun]
  | request v =>
    by_cases hrun : s.threads t = .running <;> by_cases hd : ∀ j, 0 ≤ v j <;>
      simp [act, System.guarded, call, Disciplined, hrun, hd]
  | recheck =>
    cases hb : s.threads t <;> simp [act, System.guarded, call, Disciplined, hb]
  | release v =>
    by_cases hrun : s.threads t = .running <;> by_cases hd : ∀ j, 0 ≤ v j <;>
      simp [act, System.guarded, call, Disciplined, hrun, hd]

end Sys

namespace Setup

abbrev N (c : Setup) : ℕ := c.pCount.toNat
abbrev M (c : Setup) : ℕ := c.rCount.toNat

/-- `rm_init` has returned 0, and each thread is registered: `get_tid` finds its row. -/
def init (c : Setup) (s : Sys c.N c.M) : Prop :=
  ∃ g rm registry, rmInit g c.pCount c.rCount c.rExist c.avoid = some rm ∧
    s = ⟨{ rm with toRegistry := registry }, fun _ => false, fun _ => false, fun _ => .running⟩ ∧
    ∀ t, s.rm.row (c.handle t) = some t

def system (c : Setup) : System (Sys c.N c.M) := System.ofAct c.init (Sys.call c.handle)

end Setup

namespace Session

/-- What a session passes to `rm_init`, without what it promises. -/
def setup (c : Session) : Setup := ⟨c.pCount, c.rCount, c.rExist, c.avoid, c.handle⟩

theorem setup_init {c : Session} {s : Sys c.N c.M} (hs : c.init s) : c.setup.init s := by
  have hrow := (inv_init hs).row
  obtain ⟨g, rm, starts, hg, hinit, hp, rfl⟩ := hs
  exact ⟨g, rm, _, hinit, rfl, hrow⟩

/-- The runs of a session are runs of the library. -/
theorem setup_reachable {c : Session} {s : Sys c.N c.M} (hs : c.system.Reachable s) :
    c.setup.system.Reachable s := by
  refine hs.invariant (fun _ h => .start (setup_init h)) ?_
  intro s t _ hr hstep
  obtain ⟨a, ha⟩ := hstep
  rw [Sys.act_eq_guarded] at ha
  exact hr.next ⟨a, (System.guarded_eq_some.mp ha).2⟩

end Session

/-! ## What a call moves -/

namespace Manager

variable {N M : ℕ} {s s' : Manager N M} {t : Fin N} {r v : Vec M}

/-- `r` has gone from what is available to thread `t`. -/
structure Moved (t : Fin N) (r : Vec M) (s s' : Manager N M) : Prop where
  registry : s'.toRegistry = s.toRegistry
  avoid : s'.DA = s.DA
  exist : s'.ExistingRes = s.ExistingRes
  available : s'.available = s.available - r
  allocation : s'.allocation = Function.update s.allocation t (s.allocation t + r)

theorem Moved.zero (registry : s'.toRegistry = s.toRegistry) (avoid : s'.DA = s.DA)
    (exist : s'.ExistingRes = s.ExistingRes) (available : s'.available = s.available)
    (allocation : s'.allocation = s.allocation) : Moved t 0 s s' :=
  ⟨registry, avoid, exist, by simpa using available, by simpa using allocation⟩

/-- Whatever moves, the total stays. -/
theorem Moved.total (h : Moved t r s s') : s'.pool.total = s.pool.total := by
  have hgrant := s.pool.total_grant t r
  rw [← hgrant]
  simp only [Pool.total, Pool.grant, pool, h.available, h.allocation]

theorem Moved.row (h : Moved t r s s') (self : Handle) : s'.row self = s.row self := by
  rw [Manager.row, Manager.row, h.registry]

/-- The bounds on the tables. -/
def Bounded (s : Manager N M) : Prop :=
  ∀ j, 0 ≤ s.available j ∧ s.available j ≤ s.ExistingRes j ∧ ∀ i, 0 ≤ s.allocation i j

/-- In tables that balance, nothing is above what exists if nothing is below 0. -/
theorem bounded_iff (htotal : s.pool.total = s.ExistingRes) :
    s.Bounded ↔ 0 ≤ s.available ∧ ∀ i, 0 ≤ s.allocation i := by
  constructor
  · intro h
    exact ⟨fun j => (h j).1, fun i j => (h j).2.2 i⟩
  · rintro ⟨hav, hal⟩ j
    refine ⟨hav j, ?_, fun i => hal i j⟩
    calc s.available j ≤ s.available j + ∑ i, s.allocation i j :=
          le_add_of_nonneg_right (Finset.sum_nonneg fun i _ => hal i j)
      _ = s.ExistingRes j := by simpa [Pool.total, pool] using congrFun htotal j

/-- The tables stay within their bounds when what moves is available, and no more is given
back than is held. -/
theorem Moved.bounded_iff (h : Moved t r s s') (htotal : s.pool.total = s.ExistingRes)
    (hs : s.Bounded) : s'.Bounded ↔ -s.allocation t ≤ r ∧ r ≤ s.available := by
  have hal := ((Manager.bounded_iff htotal).mp hs).2
  rw [Manager.bounded_iff (h.total.trans (htotal.trans h.exist.symm)), h.available, h.allocation,
    sub_nonneg, and_comm, neg_le_iff_add_nonneg']
  refine and_congr_left fun _ => ⟨fun hall => by simpa using hall t, fun ht i => ?_⟩
  by_cases hi : i = t
  · subst hi; simpa using ht
  · simpa [hi] using hal i

/-- The waiting loops hold a thread back under one of their two flags only, and under these
let nobody pass who asks for more than is available. -/
theorem le_available_of_pass (h : (s.mustWait t v).1 = false) (hda : s.DA = 0 ∨ s.DA = 1) :
    v ≤ s.available := by
  rw [← s.isAvailable_iff v]
  rw [mustWait_fst_eq] at h
  rcases hda with hda | hda
  · simpa [hda] using h
  · simp only [hda] at h
    simpa using (by simpa using h : _ ∧ _).2

theorem tryGrant_eq (s : Manager N M) (t : Fin N) (v : Vec M) :
    s.tryGrant t v =
      if (s.mustWait t v).1 then (.waiting, s) else (.granted, s.allocate t v) := by
  have hs := s.mustWait_snd t v
  rw [tryGrant]
  generalize s.mustWait t v = w at hs ⊢
  obtain ⟨wait, rm⟩ := w
  obtain rfl : rm = s := hs
  cases wait <;> rfl

/-- The waiting loops and what follows move the request, or nothing. -/
theorem moved_tryGrant (s : Manager N M) (t : Fin N) (v : Vec M) :
    Moved t (if (s.mustWait t v).1 then 0 else v) s (s.tryGrant t v).2 := by
  rw [tryGrant_eq]
  split_ifs
  · exact .zero rfl rfl rfl rfl rfl
  · exact ⟨rfl, rfl, rfl, rfl, rfl⟩

/-- `rm_request` returns -1 only through its two checks. -/
theorem rmRequest_rejected_iff (s : Manager N M) (t : Fin N) (v : Vec M) :
    (s.rmRequest t v).1 = .rejected ↔ ¬ (v ≤ s.need t ∧ v ≤ s.ExistingRes) := by
  rw [rmRequest, tryGrant_eq, not_and_or, ← anyAbove_iff, ← anyAbove_iff]
  split_ifs <;> simp_all

/-- The waiting loops do not refuse a request. -/
theorem tryGrantInt_ne_rejected (s : Manager N M) (t : Fin N) (v : Vec M) :
    (s.tryGrantInt t v).1 ≠ .rejected := by
  unfold tryGrantInt
  split <;> simp

/-- A call that returns -1 leaves everything as it was. -/
theorem unchanged_of_refused (s : Manager N M) (t : Fin N) (v : Vec M) :
    ((s.rmClaim t v).1 = -1 → (s.rmClaim t v).2 = s) ∧
    ((s.rmRequestInt t v).1 = .rejected → (s.rmRequestInt t v).2 = s) ∧
    ((s.rmReleaseInt t v).1 = -1 → (s.rmReleaseInt t v).2.2 = s) := by
  refine ⟨?_, ?_, ?_⟩
  · unfold rmClaim
    split_ifs <;> simp
  · unfold rmRequestInt
    split_ifs
    · simp
    · simp
    · exact fun h => absurd h (tryGrantInt_ne_rejected _ _ _)
  · unfold rmReleaseInt
    split_ifs <;> simp

end Manager

namespace Sys

variable {N M : ℕ} {handle : Fin N → Handle} {s s' : Sys N M}

/-- If the waiting loops let thread `t` pass with `v`, it gives back no more than it holds,
and no flag other than 0 and 1 has let it pass with more than is available. -/
def MayPass (s : Sys N M) (t : Fin N) (v : Vec M) : Prop :=
  (s.rm.mustWait t v).1 = false →
    -s.rm.allocation t ≤ v ∧ (s.rm.DA = 0 ∨ s.rm.DA = 1 ∨ v ≤ s.rm.available)

/-- A negative entry of a call that passes its checks is no larger than what it is taken
from. -/
def Proper (s : Sys N M) : Fin N × Call M → Prop
  | (_, .claim _) => True
  | (t, .request v) => v ≤ s.rm.need t → v ≤ s.rm.ExistingRes → s.MayPass t v
  | (t, .recheck) => ∀ v signalled, s.threads t = .blocked v signalled → s.MayPass t v
  | (t, .release v) => v ≤ s.rm.allocation t → -s.rm.available ≤ v

/-- What the call computes fits in `int`s. -/
def IntSafe (s : Sys N M) : Fin N × Call M → Prop
  | (_, .claim _) => True
  | (t, .request v) => (∀ j, v j ≤ s.rm.need t j) → (∀ j, v j ≤ s.rm.ExistingRes j) →
      s.rm.RequestFits t v
  | (t, .recheck) =>
    match s.threads t with
    | .running => True
    | .blocked v _ => s.rm.RequestFits t v
  | (t, .release v) => (∀ j, v j ≤ s.rm.allocation t j) → s.rm.ReleaseFits t v

instance (s : Sys N M) : DecidablePred s.IntSafe
  | (_, .claim _) => .isTrue trivial
  | (_, .request _) => inferInstanceAs (Decidable (_ → _ → Manager.RequestFits _ _ _))
  | (t, .recheck) =>
    match h : s.threads t with
    | .running => .isTrue (by simp [IntSafe, h])
    | .blocked v _ => decidable_of_iff (s.rm.RequestFits t v) (by simp [IntSafe, h])
  | (_, .release _) => inferInstanceAs (Decidable (_ → Manager.ReleaseFits _ _ _))

@[simp] theorem settle_rm (s : Sys N M) (t : Fin N) (v : Vec M) (res : Verdict × Manager N M) :
    (s.settle t v res).rm = res.2 := by
  obtain ⟨verdict, rm⟩ := res
  cases verdict <;> rfl

/-- Nothing is given back beyond what thread `t` holds, or taken beyond what is available. -/
def Fits (s : Sys N M) (t : Fin N) (r : Vec M) : Prop := -s.rm.allocation t ≤ r ∧ r ≤ s.rm.available

/-- What an action does, when a thread is found in its own row. -/
inductive CallEffect (s : Sys N M) (t : Fin N) : Call M → Sys N M → Prop
  | claim {v : Vec M} :
      CallEffect s t (.claim v)
        { s with rm := (s.rm.rmClaim t v).2, claimed := Function.update s.claimed t true }
  | request {v : Vec M} :
      CallEffect s t (.request v)
        ({ s with requested := Function.update s.requested t true }.settle t v
          (s.rm.rmRequest t v))
  | recheck {v : Vec M} {signalled : Bool} (blocked : s.threads t = .blocked v signalled) :
      CallEffect s t .recheck (s.settle t v (s.rm.tryGrant t v))
  | release {v : Vec M} :
      CallEffect s t (.release v)
        { s with
          rm := (s.rm.rmRelease t v).2.2
          threads := fun i =>
            if (s.rm.rmRelease t v).2.1 i then (s.threads i).signal else s.threads i }

theorem call_effect (hrow : ∀ t, s.rm.row (handle t) = some t) {t : Fin N} {c : Call M}
    (hcall : s.call handle (t, c) = some s') : CallEffect s t c s' := by
  cases c with
  | claim v =>
    simp only [call, hrow, Option.map_some] at hcall
    split_ifs at hcall
    exact Option.some.inj hcall ▸ .claim
  | request v =>
    simp only [call, hrow, Option.map_some] at hcall
    split_ifs at hcall
    exact Option.some.inj hcall ▸ .request
  | recheck =>
    cases hb : s.threads t with
    | running => simp [call, hb] at hcall
    | blocked v signalled =>
      simp only [call, hb, hrow, Option.map_some] at hcall
      exact Option.some.inj hcall ▸ .recheck hb
  | release v =>
    simp only [call, hrow, Option.map_some] at hcall
    split_ifs at hcall
    exact Option.some.inj hcall ▸ .release

/-- Then it does what it does in the integers. -/
theorem callInt_eq (hrow : ∀ t, s.rm.row (handle t) = some t) {a : Fin N × Call M}
    (h : s.IntSafe a) : s.callInt handle a = s.call handle a := by
  obtain ⟨t, c⟩ := a
  cases c with
  | claim v => rfl
  | request v => simp only [callInt, call, hrow, Option.map_some, rmRequestInt_eq h]
  | recheck =>
    cases hb : s.threads t with
    | running => simp only [callInt, call, hb]
    | blocked v signalled =>
      have hfits : s.rm.RequestFits t v := by simpa [IntSafe, hb] using h
      simp only [callInt, call, hb, hrow, Option.map_some, hfits.tryGrantInt]
  | release v => simp only [callInt, call, hrow, Option.map_some, rmReleaseInt_eq h]

/-- A thread in the waiting loops moves its request or nothing. -/
theorem moved_of_tries (s : Sys N M) (t : Fin N) (v : Vec M) :
    ∃ r, Moved t r s.rm (s.rm.tryGrant t v).2 ∧ (s.Fits t 0 → (s.Fits t r ↔ s.MayPass t v)) := by
  refine ⟨_, s.rm.moved_tryGrant t v, fun hzero => ?_⟩
  cases hwait : (s.rm.mustWait t v).1 with
  | true => simpa [MayPass, hwait] using hzero
  | false =>
    have hpass := le_available_of_pass hwait
    simp only [MayPass, hwait, forall_const]
    refine and_congr_right fun _ => ⟨fun h => .inr (.inr h), ?_⟩
    rintro (hda | hda | h)
    · exact hpass (.inl hda)
    · exact hpass (.inr hda)
    · exact h

/-- A call moves some vector, which fits when the call is proper. -/
theorem moved_of_call (hrow : ∀ t, s.rm.row (handle t) = some t) {t : Fin N} {c : Call M}
    (hcall : s.call handle (t, c) = some s') :
    ∃ r, Moved t r s.rm s'.rm ∧ (s.Fits t 0 → (s.Fits t r ↔ s.Proper (t, c))) := by
  cases call_effect hrow hcall with
  | @claim v =>
    refine ⟨0, ?_, fun hzero => iff_of_true hzero trivial⟩
    unfold rmClaim
    split_ifs
    · exact .zero rfl rfl rfl rfl rfl
    · exact .zero rfl rfl rfl rfl rfl
  | @request v =>
    rw [settle_rm]
    unfold rmRequest
    split_ifs with hneed hexist
    · exact ⟨0, .zero rfl rfl rfl rfl rfl,
        fun hzero => iff_of_true hzero fun h => absurd h (by simpa using hneed)⟩
    · exact ⟨0, .zero rfl rfl rfl rfl rfl,
        fun hzero => iff_of_true hzero fun _ h => absurd h (by simpa using hexist)⟩
    · have hneed : v ≤ s.rm.need t := by simpa using hneed
      have hexist : v ≤ s.rm.ExistingRes := by simpa using hexist
      set u : Sys N M := { s with
        rm := { s.rm with requests := Function.update s.rm.requests t v } } with hu
      obtain ⟨r, hmoved, hiff⟩ := u.moved_of_tries t v
      refine ⟨r, ⟨hmoved.1, hmoved.2, hmoved.3, hmoved.4, hmoved.5⟩,
        fun hzero => (hiff hzero).trans ?_⟩
      simp only [Proper, hneed, hexist, forall_const, MayPass, hu, mustWait_requests]
  | @recheck v signalled hb =>
    obtain ⟨r, hmoved, hiff⟩ := s.moved_of_tries t v
    exact ⟨r, by simpa using hmoved, fun hzero => (hiff hzero).trans (by simp [Proper, hb])⟩
  | @release v =>
    by_cases hle : v ≤ s.rm.allocation t
    · rw [rmRelease, if_neg (by simpa using hle)]
      refine ⟨-v, ⟨rfl, rfl, rfl, by simp, by simp [sub_eq_add_neg]⟩, fun _ => ?_⟩
      simp only [Fits, Proper, hle, forall_const, neg_le_neg_iff, true_and]
      exact neg_le
    · rw [rmRelease, if_pos (by simpa using hle)]
      exact ⟨0, .zero rfl rfl rfl rfl rfl, fun hzero => iff_of_true hzero fun h => absurd h hle⟩

/-- What no call changes: the registered threads are found, and the tables balance. -/
structure Kept (handle : Fin N → Handle) (ex : Vec M) (s : Sys N M) : Prop where
  row : ∀ t, s.rm.row (handle t) = some t
  exist : s.rm.ExistingRes = ex
  total : s.rm.pool.total = ex

variable {ex : Vec M} {a : Fin N × Call M}

theorem Kept.step (h : Kept handle ex s) (hcall : s.call handle a = some s') :
    Kept handle ex s' := by
  obtain ⟨r, hmoved, -⟩ := moved_of_call h.row hcall
  exact ⟨fun t => (hmoved.row _).trans (h.row t), hmoved.exist.trans h.exist,
    hmoved.total.trans h.total⟩

/-- A call keeps the tables within their bounds exactly when it is proper. -/
theorem Kept.bounded_iff (h : Kept handle ex s) (hs : s.rm.Bounded)
    (hcall : s.call handle a = some s') : s'.rm.Bounded ↔ s.Proper a := by
  have htotal := h.total.trans h.exist.symm
  obtain ⟨hav, hal⟩ := (Manager.bounded_iff htotal).mp hs
  obtain ⟨r, hmoved, hfits⟩ := moved_of_call h.row hcall
  rw [hmoved.bounded_iff htotal hs]
  exact hfits ⟨by simpa using hal a.1, hav⟩

end Sys

namespace Setup

open Sys

variable {c : Setup} {s : Sys c.N c.M}

theorem kept_init (hs : c.init s) : Kept c.handle (fun j => c.rExist j) s := by
  obtain ⟨g, rm, registry, hinit, rfl, hrow⟩ := hs
  obtain ⟨-, rfl⟩ := rmInit_eq_some hinit
  exact ⟨hrow, rfl, by funext j; simp [Pool.total, pool]⟩

theorem bounded_init (hs : c.init s) : s.rm.Bounded ↔ ∀ j : Fin c.M, 0 ≤ c.rExist j := by
  obtain ⟨g, rm, registry, hinit, rfl, -⟩ := hs
  obtain ⟨-, rfl⟩ := rmInit_eq_some hinit
  simp [Bounded]

/-- As long as what the calls compute fits in `int`s, every state is within its bounds in exactly
the runs that begin with non-negative resources and in which every call is proper; a call that
returns -1 changes nothing. -/
theorem tables_bounded (hs : c.init s) {calls : List (Fin c.N × Call c.M)}
    (hints : System.Meets (Sys.callInt c.handle) IntSafe s calls) :
    (System.Always (Sys.callInt c.handle) (fun s => s.rm.Bounded) s calls ↔
      (∀ j : Fin c.M, 0 ≤ c.rExist j) ∧ System.Meets (Sys.callInt c.handle) Proper s calls) ∧
    ∀ (rm : Manager c.N c.M) (t : Fin c.N) (v : Vec c.M),
      ((rm.rmClaim t v).1 = -1 → (rm.rmClaim t v).2 = rm) ∧
      ((rm.rmRequestInt t v).1 = .rejected → (rm.rmRequestInt t v).2 = rm) ∧
      ((rm.rmReleaseInt t v).1 = -1 → (rm.rmReleaseInt t v).2.2 = rm) := by
  refine ⟨?_, fun rm t v => rm.unchanged_of_refused t v⟩
  rw [← bounded_init hs]
  exact hints.always_iff (I := Kept c.handle fun j => c.rExist j) (kept_init hs)
    (fun _ _ _ h hint hcall => h.step (callInt_eq h.row hint ▸ hcall))
    fun _ _ _ h hb hint hcall => h.bounded_iff hb (callInt_eq h.row hint ▸ hcall)

/-- The two threads of app.c as they start, without avoidance. -/
theorem init_appStart : (Session.app 0).setup.init (Session.app 0).start :=
  Session.setup_init (Session.init_start _ (by decide) (by decide))

/-- The calls of app.c, none of which leaves the range of an `int`. -/
def appCallsEnd : Sys (Session.app 0).N (Session.app 0).M :=
  (System.perform (System.guarded (Sys.callInt (Session.app 0).handle) IntSafe) Session.appCalls
    (Session.app 0).start).get (by decide +kernel)

theorem intSafe_appCalls : System.Meets (Sys.callInt (Session.app 0).handle) IntSafe
    (Session.app 0).start Session.appCalls :=
  .of_guarded (t := appCallsEnd) (Option.some_get _).symm

theorem tables_bounded_app :
    (System.Always (Sys.callInt (Session.app 0).handle) (fun s => s.rm.Bounded)
        (Session.app 0).start Session.appCalls ↔
      (∀ _ : Fin (Session.app 0).M, (0 : ℤ) ≤ 8) ∧
        System.Meets (Sys.callInt (Session.app 0).handle) Proper (Session.app 0).start
          Session.appCalls) ∧
    ∀ (rm : Manager (Session.app 0).N (Session.app 0).M) (t : Fin (Session.app 0).N)
      (v : Vec (Session.app 0).M),
      ((rm.rmClaim t v).1 = -1 → (rm.rmClaim t v).2 = rm) ∧
      ((rm.rmRequestInt t v).1 = .rejected → (rm.rmRequestInt t v).2 = rm) ∧
      ((rm.rmReleaseInt t v).1 = -1 → (rm.rmReleaseInt t v).2.2 = rm) :=
  tables_bounded init_appStart intSafe_appCalls

/-- A thread that holds nothing releases minus nine of eight units. -/
def minusNine : List (Fin 2 × Call 1) := [(Fin.last 1, .release fun _ => -9)]

def minusNineEnd : Sys 2 1 :=
  (System.perform (Sys.callInt (Session.app 0).handle) minusNine (Session.app 0).start).get
    (by decide +kernel)

/-- Minus one unit is available then. -/
theorem unbounded_minusNine :
    ∃ s, (Session.app 0).setup.init s ∧
      ¬ System.Always (Sys.callInt (Session.app 0).handle) (fun s => s.rm.Bounded) s minusNine := by
  refine ⟨_, init_appStart, fun h => ?_⟩
  have hend := h.of_perform (t := minusNineEnd) (Option.some_get _).symm
  exact absurd (hend ⟨0, by decide⟩).1 (by decide +kernel)

end Setup

/-! ## In a session nothing wraps -/

namespace Sys

open Vec

variable {N M : ℕ} {handle : Fin N → Handle} {da : ℤ} {ex : Vec M} {s : Sys N M}

/-- A row between 0 and what exists. -/
theorem Inv.ints_of_le (hex : Ints ex) {a : Vec M} (ha : 0 ≤ a) (hle : a ≤ ex) : Ints a :=
  Ints.of_le (fun _ => (by decide : IsInt 0)) hex ha hle

theorem Inv.need_nonneg (h : Inv handle da ex s) (t : Fin N) : 0 ≤ s.rm.need t :=
  (h.requests_nonneg t).trans (h.requests_le t)

theorem Inv.need_add_allocation_le (h : Inv handle da ex s) (t : Fin N) :
    s.rm.need t + s.rm.allocation t ≤ ex := (h.demand t).trans_le (h.demand_le t)

theorem Inv.available_add_allocation_le (h : Inv handle da ex s) (t : Fin N) :
    s.rm.available + s.rm.allocation t ≤ ex := by
  rw [← h.total]
  exact add_le_add le_rfl
    (Finset.single_le_sum (fun i _ => h.allocation_nonneg i) (Finset.mem_univ t))

/-- What is available, held and needed lies between 0 and what exists, and a request does not
go beyond the need of its thread. -/
theorem Inv.requestFits (h : Inv handle da ex s) (hda : da = 0 ∨ da = 1) (hex : Ints ex)
    {t : Fin N} {v : Vec M} (hv : 0 ≤ v) (hle : v ≤ s.rm.need t) : s.rm.RequestFits t v := by
  have hneed : s.rm.need t ≤ ex :=
    (le_add_of_nonneg_right (h.allocation_nonneg t)).trans (h.need_add_allocation_le t)
  have hallocation : s.rm.allocation t ≤ ex :=
    (le_add_of_nonneg_left (h.need_nonneg t)).trans (h.need_add_allocation_le t)
  have havailable : s.rm.available ≤ ex :=
    (le_add_of_nonneg_right (h.allocation_nonneg t)).trans (h.available_add_allocation_le t)
  have hless : Ints (s.rm.need t - v) :=
    Inv.ints_of_le hex (sub_nonneg.mpr hle) ((sub_le_self _ hv).trans hneed)
  have hmore : Ints (s.rm.allocation t + v) := by
    refine Inv.ints_of_le hex (add_nonneg (h.allocation_nonneg t) hv) ?_
    rw [add_comm]
    exact (add_le_add hle le_rfl).trans (h.need_add_allocation_le t)
  constructor
  · intro _
    have hsums : s.rm.SumsFit t v :=
      { need := Inv.ints_of_le hex (h.need_nonneg t) hneed
        allocation := Inv.ints_of_le hex (h.allocation_nonneg t) hallocation
        less := hless
        more := hmore
        free := fun j => by
          have hfree := h.available_nonneg j
          have hbound := (hle.trans hneed) j
          have hint := hex j
          have hupper := havailable j
          have hpos := hv j
          simp only [Pi.zero_apply, Pi.sub_apply, IsInt] at *
          omega
        total := h.total.symm ▸ hex }
    exact hsums.checkFits h.allocation_nonneg (add_nonneg (h.allocation_nonneg t) hv)
  · intro hpass
    have hfits := le_available_of_pass hpass (h.avoid ▸ hda)
    exact ⟨Inv.ints_of_le hex (sub_nonneg.mpr hfits) ((sub_le_self _ hv).trans havailable), hmore,
      hless⟩

theorem Inv.intSafe (h : Inv handle da ex s) (hda : da = 0 ∨ da = 1) (hex : Ints ex)
    {a : Fin N × Call M} (ha : s.Disciplined a) : s.IntSafe a := by
  obtain ⟨t, c⟩ := a
  cases c with
  | claim v => trivial
  | request v => exact fun hle _ => h.requestFits hda hex ha hle
  | recheck =>
    cases hb : s.threads t with
    | running => simp [IntSafe, hb]
    | blocked v signalled =>
      have hfits := h.requestFits hda hex (h.nonneg_of_blocked hb) (h.le_need_of_blocked hb)
      simpa [IntSafe, hb] using hfits
  | release v =>
    intro hle
    have hv : 0 ≤ v := ha
    have hle : v ≤ s.rm.allocation t := hle
    refine ⟨Inv.ints_of_le hex (add_nonneg h.available_nonneg hv) ?_,
      Inv.ints_of_le hex (sub_nonneg.mpr hle) ((sub_le_self _ hv).trans ?_),
      Inv.ints_of_le hex (add_nonneg (h.need_nonneg t) hv) ?_⟩
    · exact (add_le_add le_rfl hle).trans (h.available_add_allocation_le t)
    · exact (le_add_of_nonneg_left (h.need_nonneg t)).trans (h.need_add_allocation_le t)
    · exact (add_le_add le_rfl hle).trans (h.need_add_allocation_le t)

end Sys

/-- The actions of a session are the disciplined calls in `int`s. -/
theorem Session.act_eq_int {c : Session} (ha : c.avoid = 0 ∨ c.avoid = 1)
    (hex : Vec.Ints c.exist) {s : Sys c.N c.M} (hs : c.system.Reachable s)
    (a : Fin c.N × Call c.M) :
    s.act c.handle a = System.guarded (Sys.callInt c.handle) Sys.Disciplined s a := by
  have h := Session.inv ha hs
  rw [Sys.act_eq_guarded, System.guarded, System.guarded]
  split_ifs with hd
  · exact (Sys.callInt_eq h.row (h.intSafe ha hex hd)).symm
  · rfl

/-! ## Requests without claims -/

namespace Sys

variable {N M : ℕ} {handle : Fin N → Handle} {s s' : Sys N M}

/-- A non-negative call other than a claim. -/
def NoClaim : Fin N × Call M → Prop
  | (_, .claim _) => False
  | (_, .request v) | (_, .release v) => ∀ j, 0 ≤ v j
  | (_, .recheck) => True

/-- Nothing is needed, held or waited for. -/
structure Idle (s : Sys N M) : Prop where
  need : ∀ i, s.rm.need i = 0
  allocation : ∀ i, s.rm.allocation i = 0
  waits : ∀ i v signalled, s.threads i = .blocked v signalled → v = 0

theorem Idle.settle (h : s.Idle) {rm : Manager N M} (hneed : rm.need = s.rm.need)
    (hal : rm.allocation = s.rm.allocation) (t : Fin N) :
    (s.settle t 0 (rm.tryGrant t 0)).Idle := by
  have hneed (i) : rm.need i = 0 := hneed ▸ h.need i
  have hal (i) : rm.allocation i = 0 := hal ▸ h.allocation i
  rw [tryGrant_eq]
  split_ifs
  · refine ⟨hneed, hal, fun i v signalled hi => ?_⟩
    rcases eq_or_ne i t with rfl | hne
    · simpa [Sys.settle, eq_comm] using (by simpa [Sys.settle] using hi : (0 : Vec M) = v ∧ _).1
    · exact h.waits i v signalled (by simpa [Sys.settle, hne] using hi)
  · refine ⟨fun i => ?_, fun i => ?_, fun i v signalled hi => ?_⟩
    · simpa [Sys.settle, allocate] using hneed i
    · simpa [Sys.settle, allocate] using hal i
    · rcases eq_or_ne i t with rfl | hne
      · simp [Sys.settle] at hi
      · exact h.waits i v signalled (by simpa [Sys.settle, hne] using hi)

/-- Without claims every call asks for nothing, is refused, or releases nothing. -/
theorem Idle.step (h : s.Idle) (hrow : ∀ t, s.rm.row (handle t) = some t) {a : Fin N × Call M}
    (ha : NoClaim a) (hcall : s.call handle a = some s') : s'.Idle := by
  obtain ⟨t, c⟩ := a
  cases call_effect hrow hcall with
  | claim => exact ha.elim
  | @request v =>
    unfold rmRequest
    split_ifs with hneed
    · exact ⟨h.need, h.allocation, h.waits⟩
    · exact ⟨h.need, h.allocation, h.waits⟩
    · have hle : v ≤ 0 := h.need t ▸ (by simpa using hneed)
      obtain rfl : v = 0 := le_antisymm hle ha
      have hu : Idle { s with requested := Function.update s.requested t true } :=
        ⟨h.need, h.allocation, h.waits⟩
      refine hu.settle ?_ ?_ t <;> rfl
  | @recheck v signalled hb =>
    obtain rfl := h.waits t v signalled hb
    exact h.settle rfl rfl t
  | @release v =>
    by_cases hle : v ≤ s.rm.allocation t
    · obtain rfl : v = 0 := le_antisymm (h.allocation t ▸ hle) ha
      rw [rmRelease, if_neg (by simpa using hle)]
      refine ⟨fun i => by simpa using h.need i, fun i => by simpa using h.allocation i,
        fun i v signalled hi => ?_⟩
      cases hb : s.threads i with
      | running => simp [hb, Local.signal] at hi
      | blocked u b =>
        obtain ⟨rfl, -⟩ : u = v ∧ _ := by simpa [hb, Local.signal] using hi
        exact h.waits i u b hb
    · rw [rmRelease, if_pos (by simpa using hle)]
      exact ⟨h.need, h.allocation,
        fun i v signalled hi => h.waits i v signalled (by simpa using hi)⟩

end Sys

namespace Setup

open Sys

variable {c : Setup} {s₀ s : Sys c.N c.M}

theorem idle_init (hs : c.init s) : s.Idle := by
  obtain ⟨g, rm, registry, hinit, rfl, -⟩ := hs
  obtain ⟨-, rfl⟩ := rmInit_eq_some hinit
  exact ⟨fun _ => rfl, fun _ => rfl, fun _ _ _ h => by simp at h⟩

/-- As long as nobody has claimed, a request is refused for asking for more than exists in
exactly two cases: it does so, or it asks for nothing. -/
theorem unclaimed_request (hs : c.init s₀) {calls : List (Fin c.N × Call c.M)}
    (hcalls : ∀ a ∈ calls, NoClaim a)
    (hrun : System.perform (Sys.call c.handle) calls s₀ = some s) (t : Fin c.N) {v : Vec c.M}
    (hv : ∀ j, 0 ≤ v j) :
    ((s.rm.rmRequest t v).1 = .rejected ↔ ∃ j, s.rm.ExistingRes j < v j) ↔
      (∀ j, v j = 0) ∨ ∃ j, s.rm.ExistingRes j < v j := by
  have hmeets : System.Meets (Sys.call c.handle) (fun _ => NoClaim) s₀ calls :=
    .of_mem (fun a ha _ => hcalls a ha) s₀
  obtain ⟨-, hidle⟩ := hmeets.perform
    (I := fun s => Kept c.handle (fun j => c.rExist j) s ∧ s.Idle) ⟨kept_init hs, idle_init hs⟩
    (fun _ _ _ h ha hcall => ⟨h.1.step hcall, h.2.step h.1.row ha hcall⟩) hrun
  have hle : v ≤ s.rm.need t ↔ ∀ j, v j = 0 := by
    rw [hidle.need t]
    exact ⟨fun h j => le_antisymm (h j) (hv j), fun h j => (h j).le⟩
  have hexist : (∃ j, s.rm.ExistingRes j < v j) ↔ ¬ v ≤ s.rm.ExistingRes := by
    simp [Pi.le_def]
  rw [rmRequest_rejected_iff, hle, hexist]
  tauto

theorem unclaimed_request_app :
    (((Session.app 0).start.rm.rmRequest ⟨0, by decide⟩ fun _ => 9).1 = .rejected ↔
        ∃ j, (Session.app 0).start.rm.ExistingRes j < 9) ↔
      (∀ _ : Fin (Session.app 0).M, (9 : ℤ) = 0) ∨
        ∃ j, (Session.app 0).start.rm.ExistingRes j < 9 :=
  @unclaimed_request _ _ _ init_appStart [] (by simp) rfl ⟨0, by decide⟩ _ (by decide)

/-- Five of eight units, all of them available, are refused. -/
theorem refused_appStart :
    ∃ s, (Session.app 0).setup.init s ∧ ¬ ((s.rm.rmRequest ⟨0, by decide⟩ fun _ => 5).1 =
      .rejected ↔ ∃ j, s.rm.ExistingRes j < 5) :=
  ⟨_, init_appStart, by decide +kernel⟩

end Setup

end Cs342.ResourceManager
