import Cs342.Library.System
import Cs342.ResourceManager.Safety

/-!
# Threads using the resource manager

A session is one successful `rm_init` followed by the registration of its threads,
and then any interleaving of their calls. Each mutex-protected section is one
action: `rm_request` up to its first wait or its return, one round of a woken
thread in the waiting loop (the wake-up may be spurious), a whole `rm_release`; so
is a whole `rm_claim`. A blocked thread does nothing else, and its undelivered
signal is used up by the next round.

The guards are the discipline the application keeps: vectors are non-negative, and
a thread claims at most once and before its first request. `Effect` says once what
an action can do; the invariants are proved from it.
-/

namespace Cs342.ResourceManager

open Library Manager

/-- Where a thread is: in the application, or waiting inside `rm_request`. -/
inductive Local (M : ℕ) where
  | running
  | blocked (request : Vec M) (signalled : Bool)
  deriving DecidableEq

namespace Local

variable {M : ℕ}

/-- `pthread_cond_signal` on the condition variable of the thread. -/
def signal : Local M → Local M
  | .running => .running
  | .blocked request _ => .blocked request true

/-- The request a blocked thread waits for. -/
def pending : Local M → Vec M
  | .running => 0
  | .blocked request _ => request

def isBlocked : Local M → Bool
  | .running => false
  | .blocked _ _ => true

@[simp] theorem pending_signal (l : Local M) : l.signal.pending = l.pending := by cases l <;> rfl
@[simp] theorem isBlocked_signal (l : Local M) : l.signal.isBlocked = l.isBlocked := by
  cases l <;> rfl

end Local

structure Sys (N M : ℕ) where
  rm : Manager N M
  claimed : Fin N → Bool
  requested : Fin N → Bool
  threads : Fin N → Local M

inductive Call (M : ℕ) where
  | claim (v : Vec M)
  | request (v : Vec M)
  | recheck
  | release (v : Vec M)

namespace Sys

variable {N M : ℕ}

/-- Store how a critical section of `rm_request` ended for thread `t`. -/
def settle (s : Sys N M) (t : Fin N) (v : Vec M) : Verdict × Manager N M → Sys N M
  | (.rejected, rm) => { s with rm := rm }
  | (.waiting, rm) => { s with rm := rm, threads := Function.update s.threads t (.blocked v false) }
  | (.granted, rm) => { s with rm := rm, threads := Function.update s.threads t .running }

/-- One action of thread `t`, whose handle is `handle t`. -/
def act (handle : Fin N → Handle) (s : Sys N M) : Fin N × Call M → Option (Sys N M)
  | (t, .claim v) =>
    if s.threads t = .running ∧ s.claimed t = false ∧ s.requested t = false ∧ ∀ j, 0 ≤ v j then
      (s.rm.row (handle t)).map fun tid =>
        { s with rm := (s.rm.rmClaim tid v).2, claimed := Function.update s.claimed t true }
    else none
  | (t, .request v) =>
    if s.threads t = .running ∧ ∀ j, 0 ≤ v j then
      (s.rm.row (handle t)).map fun tid =>
        { s with requested := Function.update s.requested t true }.settle t v
          (s.rm.rmRequest tid v)
    else none
  | (t, .recheck) =>
    match s.threads t with
    | .running => none
    | .blocked v _ => (s.rm.row (handle t)).map fun tid => s.settle t v (s.rm.tryGrant tid v)
  | (t, .release v) =>
    if s.threads t = .running ∧ ∀ j, 0 ≤ v j then
      (s.rm.row (handle t)).map fun tid =>
        let (_, cvs, rm) := s.rm.rmRelease tid v
        { s with
          rm := rm
          threads := fun i => if cvs i then (s.threads i).signal else s.threads i }
    else none

end Sys

/-- What the application passes to `rm_init`, and the handles of its threads. -/
structure Session where
  pCount : ℤ
  rCount : ℤ
  rExist : ℕ → ℤ
  avoid : ℤ
  handle : Fin pCount.toNat → Handle
  exist_nonneg : ∀ j, j < rCount.toNat → 0 ≤ rExist j
  handle_injective : Function.Injective handle

namespace Session

abbrev N (c : Session) : ℕ := c.pCount.toNat
abbrev M (c : Session) : ℕ := c.rCount.toNat

/-- The existing resources as a vector. -/
def exist (c : Session) : Vec c.M := fun j => c.rExist j

/-- The registry after the threads in `starts` have called `rm_thread_started`. -/
def register (c : Session) (g : Registry) (starts : List (Fin c.N)) : Registry :=
  starts.foldl (fun g t => rmThreadStarted g (c.handle t) t) g

/-- `rm_init` has succeeded while no thread was live, and all threads have registered, in
some order. -/
def init (c : Session) (s : Sys c.N c.M) : Prop :=
  ∃ g rm starts, g.tcount = 0 ∧ rmInit g c.pCount c.rCount c.rExist c.avoid = some rm ∧
    starts.Perm (List.finRange c.N) ∧
    s = ⟨{ rm with toRegistry := c.register rm.toRegistry starts },
      fun _ => false, fun _ => false, fun _ => .running⟩

def system (c : Session) : System (Sys c.N c.M) := System.ofAct c.init (Sys.act c.handle)

/-! ## Registration -/

theorem register_tids (c : Session) (g : Registry) {starts : List (Fin c.N)} {t : Fin c.N}
    (ht : t ∈ starts) {i : Fin MAXP} (hi : i.val = t.val) :
    (c.register g starts).tids i = c.handle t := by
  induction starts using List.reverseRecOn with
  | nil => simp at ht
  | append_singleton ts u ih =>
    have hstep : (c.register g (ts ++ [u])).tids i =
        if i.val = u.val then c.handle u else (c.register g ts).tids i := by
      simp [register, rmThreadStarted]
    rw [hstep]
    split_ifs with hu
    · rw [show u = t from Fin.ext (hu.symm.trans hi)]
    · refine ih ((List.mem_append.mp ht).resolve_right fun h => hu ?_)
      rw [hi, List.mem_singleton.mp h]

theorem register_tcount (c : Session) (g : Registry) (starts : List (Fin c.N)) :
    (c.register g starts).tcount = g.tcount + starts.length := by
  induction starts using List.reverseRecOn with
  | nil => simp [register]
  | append_singleton ts t ih =>
    have hstep : (c.register g (ts ++ [t])).tcount = (c.register g ts).tcount + 1 := by
      simp [register, rmThreadStarted]
    rw [hstep, ih]
    simp; omega

/-- Once all threads are registered under distinct handles, `get_tid` finds each of them. -/
theorem row_register (c : Session) {rm : Manager c.N c.M} (hN : c.N ≤ MAXP) {g : Registry}
    {starts : List (Fin c.N)} (hp : starts.Perm (List.finRange c.N))
    (hg : rm.toRegistry = c.register g starts) (t : Fin c.N) :
    rm.row (c.handle t) = some t := by
  have htids (u : Fin c.N) : rm.tids (u.castLE hN) = c.handle u := by
    rw [hg]
    exact c.register_tids g (hp.mem_iff.mpr (List.mem_finRange u)) rfl
  have hget : rm.getTid (c.handle t) = some (t.castLE hN) := by
    rw [Registry.getTid, List.find?_eq_some_iff_getElem]
    refine ⟨by simp [htids], t.val, by simpa using t.isLt.trans_le hN, by ext; simp, ?_⟩
    -- an earlier slot belongs to another thread, which has another handle
    intro j hj
    have hne := c.handle_injective.ne (show (⟨j, hj.trans t.isLt⟩ : Fin c.N) ≠ t by
      intro h; rw [← h] at hj; exact absurd hj (lt_irrefl _))
    rw [← htids ⟨j, hj.trans t.isLt⟩] at hne
    simpa using hne
  simpa [Manager.row, hget] using Int.lt_toNat.mp t.isLt

/-! ## Concrete sessions -/

/-- The state after `rm_init` in a fresh process, all threads registered in order. -/
def start (c : Session) : Sys c.N c.M where
  rm :=
    { toRegistry := c.register ⟨0, fun _ => 0⟩ (List.finRange c.N)
      DA := c.avoid
      ExistingRes := c.exist
      maxDemand := fun _ _ => 0
      allocation := fun _ _ => 0
      need := fun _ _ => 0
      requests := fun _ _ => 0
      available := c.exist }
  claimed _ := false
  requested _ := false
  threads _ := .running

/-- The calls of a session, in the order in which they happen. -/
def run (c : Session) (calls : List (Fin c.N × Call c.M)) : Option (Sys c.N c.M) :=
  System.perform (Sys.act c.handle) calls c.start

theorem init_start (c : Session) (hN : c.pCount ≤ MAXP) (hM : c.rCount ≤ MAXR) :
    c.init c.start := by
  refine ⟨⟨0, fun _ => 0⟩, { c.start.rm with toRegistry := ⟨0, fun _ => 0⟩ }, _, rfl, ?_,
    .refl _, rfl⟩
  rw [rmInit, if_neg (by simp [hN, hM])]
  rfl

theorem reachable_run (c : Session) (hN : c.pCount ≤ MAXP) (hM : c.rCount ≤ MAXR)
    {calls : List (Fin c.N × Call c.M)} {s : Sys c.N c.M} (h : c.run calls = some s) :
    c.system.Reachable s :=
  ⟨c.start, c.init_start hN hM, System.steps_of_perform h⟩

/-- The threads of app.c: two of them share eight units of one resource. -/
def app (avoid : ℤ) : Session where
  pCount := 2
  rCount := 1
  rExist _ := 8
  avoid := avoid
  handle t := t.val + 1
  exist_nonneg _ _ := by decide
  handle_injective _ _ h := Fin.ext (Nat.succ.inj h)

/-- Three threads that share three units of one resource under avoidance. -/
def trio : Session where
  pCount := 3
  rCount := 1
  rExist _ := 3
  avoid := 1
  handle t := t.val + 1
  exist_nonneg _ _ := by decide
  handle_injective _ _ h := Fin.ext (Nat.succ.inj h)

/-- All three end up blocked; thread 0 has an undelivered signal from the release. -/
def trioCalls : List (Fin trio.N × Call trio.M) :=
  [((0 : Fin 3), .claim fun _ => 2), ((1 : Fin 3), .claim fun _ => 2),
   ((2 : Fin 3), .claim fun _ => 3),
   ((0 : Fin 3), .request fun _ => 1), ((1 : Fin 3), .request fun _ => 2),
   ((0 : Fin 3), .request fun _ => 1), ((1 : Fin 3), .release fun _ => 2),
   ((2 : Fin 3), .request fun _ => 1), ((1 : Fin 3), .request fun _ => 1),
   ((2 : Fin 3), .request fun _ => 1)]

def trioEnd : Sys trio.N trio.M := (trio.run trioCalls).get (by decide +kernel)

theorem reachable_trioEnd : trio.system.Reachable trioEnd :=
  trio.reachable_run (by decide) (by decide) (Option.some_get _).symm

/-- The two threads of app.c deadlock without avoidance. -/
def appCalls : List (Fin (app 0).N × Call (app 0).M) :=
  [((0 : Fin 2), .claim fun _ => 8), ((1 : Fin 2), .claim fun _ => 8),
   ((0 : Fin 2), .request fun _ => 5), ((1 : Fin 2), .request fun _ => 2),
   ((1 : Fin 2), .request fun _ => 4), ((0 : Fin 2), .request fun _ => 3)]

def appEnd : Sys (app 0).N (app 0).M := ((app 0).run appCalls).get (by decide +kernel)

theorem reachable_appEnd : (app 0).system.Reachable appEnd :=
  (app 0).reachable_run (by decide) (by decide) (Option.some_get _).symm

end Session

end Cs342.ResourceManager
