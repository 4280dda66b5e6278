import Cs342.ResourceManager.Arguments
import Cs342.ResourceManager.Registration

/-!
# Applications of the library (app.c, myapp.c)

A thread function registers, claims, issues its requests and releases in a fixed order and
says that it ends; `main` initialises the library in a fresh process and creates the
threads. What the sleeps leave open is the order of the threads' steps, so a process is
any interleaving of them, with the registry filling up as threads start and the tables gone
once they are freed.

A call uses the registry to find its own row and for nothing else, and a thread that has
started is found in its own slot.
-/

namespace Cs342.ResourceManager

open Library Manager

variable {N M : ℕ}

/-! ## Thread functions -/

/-- A call between the claim and the end. -/
inductive Use (M : ℕ) where
  | request (v : Vec M)
  | release (v : Vec M)

def Use.amount : Use M → Vec M
  | .request v | .release v => v

def Use.call : Use M → Call M
  | .request v => .request v
  | .release v => .release v

inductive Stmt (M : ℕ) where
  | started
  | claim (v : Vec M)
  | use (u : Use M)
  | ended

/-- The vectors that a thread function passes to the library. -/
structure Script (M : ℕ) where
  claim : Vec M
  uses : List (Use M)
  claim_nonneg : 0 ≤ claim
  amount_nonneg : ∀ u ∈ uses, 0 ≤ u.amount

namespace Script

/-- What is left of the function when these uses are. -/
def tail : List (Use M) → List (Stmt M)
  | [] => [.ended]
  | u :: uses => .use u :: tail uses

def body (p : Script M) : List (Stmt M) := .started :: .claim p.claim :: tail p.uses

end Script

/-! ## The process -/

/-- The library and the threads, how often the tables have been freed, and what each thread
has still to do. -/
structure Process (N M : ℕ) extends Sys N M where
  phase : Fin N → Phase
  freed : ℕ
  todo : Fin N → List (Stmt M)

/-- A thread executes its next statement, or goes on after `pthread_cond_wait`. -/
inductive Turn (N : ℕ) where
  | call (t : Fin N)
  | wake (t : Fin N)
  deriving DecidableEq, Repr

namespace Process

/-- The part that starts and ends of threads touch. -/
def lifetime (s : Process N M) : Lifetime N := ⟨s.rm.toRegistry, s.freed, s.phase⟩

def lifecycle (handle : Fin N → Handle) (s : Process N M) (e : Event N) : Option (Process N M) :=
  (s.lifetime.act handle e).map fun l =>
    { s with rm := { s.rm with toRegistry := l.registry }, freed := l.freed, phase := l.phase }

/-- A call on the tables; it has no meaning once they are freed. -/
def library (handle : Fin N → Handle) (s : Process N M) (a : Fin N × Call M) :
    Option (Process N M) :=
  if s.freed = 0 then (s.toSys.call handle a).map fun sys => { s with toSys := sys } else none

def exec (handle : Fin N → Handle) (s : Process N M) (t : Fin N) :
    Stmt M → Option (Process N M)
  | .started => s.lifecycle handle (.started t)
  | .claim v => s.library handle (t, .claim v)
  | .use u => s.library handle (t, u.call)
  | .ended => s.lifecycle handle (.ended t)

def act (handle : Fin N → Handle) (s : Process N M) : Turn N → Option (Process N M)
  | .call t =>
    match s.threads t, s.todo t with
    | .running, stmt :: rest => { s with todo := Function.update s.todo t rest }.exec handle t stmt
    | _, _ => none
  | .wake t => s.library handle (t, .recheck)

end Process

/-- What `main` passes to `rm_init` in a fresh process, and the thread functions. -/
structure Application extends Session where
  script : Fin pCount.toNat → Script rCount.toNat
  handle_ne_zero : ∀ t, handle t ≠ 0

namespace Application

def init (c : Application) (s : Process c.N c.M) : Prop :=
  ∃ rm, rmInit Lifetime.fresh c.pCount c.rCount c.rExist c.avoid = some rm ∧
    s = ⟨⟨rm, fun _ => false, fun _ => false, fun _ => .running⟩, fun _ => .unstarted, 0,
      fun t => (c.script t).body⟩

def system (c : Application) : System (Process c.N c.M) :=
  System.ofAct c.init (Process.act c.handle)

end Application

/-! ## The programs -/

/-- The first `m` of the arguments; reading past them is not defined. -/
def setarray (m : ℕ) (valist : List ℤ) : Vec m := fun i => valist.getD i 0

theorem setarray_nonneg {m : ℕ} {valist : List ℤ} (h : ∀ v ∈ valist, 0 ≤ v) :
    0 ≤ setarray m valist := by
  intro i
  rw [setarray, List.getD_eq_getElem?_getD]
  cases hi : valist[i.val]? with
  | none => exact le_rfl
  | some v => exact h v (List.mem_of_getElem? hi)

def threadfunc1 : Script 1 where
  claim := setarray 1 [8]
  uses :=
    let request1 := setarray 1 [5]
    let request2 := setarray 1 [3]
    [.request request1, .request request2, .release request1, .release request2]
  claim_nonneg := setarray_nonneg (by simp)
  amount_nonneg := by simp [Use.amount, setarray_nonneg]

def threadfunc2 : Script 1 where
  claim := setarray 1 [8]
  uses :=
    let request1 := setarray 1 [2]
    let request2 := setarray 1 [4]
    [.request request1, .request request2, .release request1, .release request2]
  claim_nonneg := setarray_nonneg (by simp)
  amount_nonneg := by simp [Use.amount, setarray_nonneg]

/-- The thread functions of myapp.c claim all there is, and issue three requests before they
release any of them. -/
def worker (request1 request2 request3 : Vec 5) (h1 : 0 ≤ request1) (h2 : 0 ≤ request2)
    (h3 : 0 ≤ request3) : Script 5 where
  claim := setarray 5 [7, 2, 6, 1, 1]
  uses := [.request request1, .request request2, .request request3,
    .release request1, .release request2, .release request3]
  claim_nonneg := setarray_nonneg (by simp)
  amount_nonneg := by simp [Use.amount, h1, h2, h3]

def worker1 : Script 5 :=
  worker (setarray 5 [2, 2, 3, 1, 1]) (setarray 5 [1, 0, 2, 0, 0]) (setarray 5 [0, 0, 1, 1, 1])
    (setarray_nonneg (by simp)) (setarray_nonneg (by simp)) (setarray_nonneg (by simp))

def worker2 : Script 5 :=
  worker (setarray 5 [2, 0, 0, 0, 0]) (setarray 5 [2, 0, 2, 0, 0]) (setarray 5 [0, 0, 0, 1, 1])
    (setarray_nonneg (by simp)) (setarray_nonneg (by simp)) (setarray_nonneg (by simp))

def worker3 : Script 5 :=
  worker (setarray 5 [3, 0, 3, 0, 0]) (setarray 5 [0, 0, 1, 0, 0]) (setarray 5 [2, 0, 0, 1, 1])
    (setarray_nonneg (by simp)) (setarray_nonneg (by simp)) (setarray_nonneg (by simp))

namespace Application

/-- The process that `main` of app.c starts, `AVOID` being its argument. -/
def app (AVOID : ℤ) : Application :=
  { Session.app (if AVOID = 1 then 1 else 0) with
    script := fun t => if t.val = 0 then threadfunc1 else threadfunc2
    handle_ne_zero := fun t => Nat.succ_ne_zero t }

theorem handle_injective_myapp : Function.Injective fun t : Fin 3 => t.val + 1 :=
  fun _ _ h => Fin.ext (Nat.succ.inj h)

/-- The one of myapp.c: `deadlock_avoid` for the argument 1, else `deadlock`. -/
def myapp (AVOID : ℤ) : Application where
  pCount := 3
  rCount := 5
  rExist := fun j => [7, 2, 6, 1, 1].getD j 0
  avoid := if AVOID = 1 then 1 else 0
  handle t := t.val + 1
  exist_nonneg := fun j hj => setarray_nonneg (m := 5) (by simp) ⟨j, hj⟩
  handle_injective := handle_injective_myapp
  script t := if t.val = 0 then worker1 else if t.val = 1 then worker2 else worker3
  handle_ne_zero t := Nat.succ_ne_zero t

/-- After `rm_init`, before any thread has started. -/
def start (c : Application) : Process c.N c.M where
  rm := { c.toSession.start.rm with toRegistry := Lifetime.fresh }
  claimed _ := false
  requested _ := false
  threads _ := .running
  phase _ := .unstarted
  freed := 0
  todo t := (c.script t).body

theorem init_start (c : Application) (hN : c.pCount ≤ MAXP) (hM : c.rCount ≤ MAXR) :
    c.init c.start := by
  refine ⟨c.start.rm, ?_, rfl⟩
  rw [rmInit, if_neg (by simp [hN, hM, Lifetime.fresh])]
  rfl

def run (c : Application) (turns : List (Turn c.N)) : Option (Process c.N c.M) :=
  System.perform (Process.act c.handle) turns c.start

theorem reachable_run (c : Application) (hN : c.pCount ≤ MAXP) (hM : c.rCount ≤ MAXR)
    {turns : List (Turn c.N)} {s : Process c.N c.M} (h : c.run turns = some s) :
    c.system.Reachable s :=
  ⟨c.start, c.init_start hN hM, System.steps_of_perform h⟩

/-- The threads of app.c under avoidance: thread 1 waits until thread 0 has released all it
holds. -/
def appTurns : List (Turn (app 1).N) :=
  let t0 : Fin 2 := Fin.rev (Fin.last 1)
  let t1 : Fin 2 := Fin.last 1
  [.call t0, .call t1, .call t0, .call t1, .call t0, .call t1, .call t0, .call t0, .wake t1,
   .call t0, .wake t1, .call t0, .call t1, .call t1, .call t1, .call t1]

/-- Thread 0 holds everything and thread 1 waits. -/
def appMiddle : Process (app 1).N (app 1).M :=
  ((app 1).run (appTurns.take 7)).get (by decide +kernel)

theorem reachable_appMiddle : (app 1).system.Reachable appMiddle :=
  (app 1).reachable_run (by decide) (by decide) (Option.some_get _).symm

end Application

/-! ## The registry -/

namespace Manager

/-- The same tables beside another registry. -/
def reseat (g : Registry) (s : Manager N M) : Manager N M := { s with toRegistry := g }

section Reseat

variable (g : Registry) (s : Manager N M) (t : Fin N) (v : Vec M)

theorem rmClaim_reseat :
    (s.reseat g).rmClaim t v = ((s.rmClaim t v).1, (s.rmClaim t v).2.reseat g) := by
  unfold rmClaim
  split_ifs with h h' h' <;> first | rfl | contradiction

theorem tryGrant_reseat :
    (s.reseat g).tryGrant t v = ((s.tryGrant t v).1, (s.tryGrant t v).2.reseat g) := by
  have hwait : ((s.reseat g).mustWait t v).1 = (s.mustWait t v).1 := by
    rw [mustWait_fst_eq, mustWait_fst_eq]
    rfl
  rw [tryGrant_eq, tryGrant_eq, hwait]
  split_ifs <;> rfl

theorem rmRequest_reseat :
    (s.reseat g).rmRequest t v = ((s.rmRequest t v).1, (s.rmRequest t v).2.reseat g) := by
  unfold rmRequest
  have h := tryGrant_reseat g { s with requests := Function.update s.requests t v } t v
  split_ifs with h1 h2 h3 h4 <;> first | rfl | contradiction | exact h

theorem rmRelease_reseat : (s.reseat g).rmRelease t v =
    ((s.rmRelease t v).1, (s.rmRelease t v).2.1, (s.rmRelease t v).2.2.reseat g) := by
  unfold rmRelease
  split_ifs with h h' h' <;> first | rfl | contradiction

end Reseat

end Manager

namespace Sys

def reseat (g : Registry) (s : Sys N M) : Sys N M := { s with rm := s.rm.reseat g }

variable {handle : Fin N → Handle} {s s' : Sys N M} {t : Fin N} {g : Registry}

theorem settle_reseat (g : Registry) (s : Sys N M) (t : Fin N) (v : Vec M) (verdict : Verdict)
    (rm : Manager N M) :
    (s.reseat g).settle t v (verdict, rm.reseat g) = (s.settle t v (verdict, rm)).reseat g := by
  cases verdict <;> rfl

/-- A call uses the registry for nothing but the row of its caller. -/
theorem call_reseat (hrow : s.rm.row (handle t) = some t)
    (hrow' : (s.rm.reseat g).row (handle t) = some t) (c : Call M) :
    (s.reseat g).call handle (t, c) = (s.call handle (t, c)).map (reseat g) := by
  have hreseat : (s.reseat g).rm = s.rm.reseat g := rfl
  have hthreads : (s.reseat g).threads = s.threads := rfl
  cases c with
  | claim v =>
    simp only [call, hreseat, hthreads, hrow, hrow', Option.map_some, rmClaim_reseat]
    split_ifs <;> rfl
  | request v =>
    simp only [call, hreseat, hthreads, hrow, hrow', Option.map_some, rmRequest_reseat]
    split_ifs
    · exact congrArg some
        (settle_reseat g { s with requested := Function.update s.requested t true } t v _ _)
    · rfl
  | recheck =>
    simp only [call, hreseat, hthreads]
    cases s.threads t with
    | running => rfl
    | blocked v signalled =>
      simp only [hrow, hrow', Option.map_some, tryGrant_reseat, settle_reseat]
  | release v =>
    simp only [call, hreseat, hthreads, hrow, hrow', Option.map_some, rmRelease_reseat]
    split_ifs <;> rfl

/-- A call leaves the registry alone. -/
theorem registry_of_call (hrow : s.rm.row (handle t) = some t) {c : Call M}
    (h : s.call handle (t, c) = some s') : s'.rm.toRegistry = s.rm.toRegistry := by
  have hsame := call_reseat (g := s.rm.toRegistry) hrow hrow c
  rw [show s.reseat s.rm.toRegistry = s from rfl, h, Option.map_some, Option.some.injEq] at hsame
  rw [hsame]
  rfl

end Sys

namespace Lifetime

variable {handle : Fin N → Handle} {l l' : Lifetime N} {t : Fin N}

/-- The slot of a thread is still zero, or holds its handle from its start on. -/
def Seated (handle : Fin N → Handle) (l : Lifetime N) : Prop :=
  ∀ (t : Fin N) (i : Fin MAXP), i.val = t.val →
    l.registry.tids i = if l.phase t = .unstarted then 0 else handle t

theorem Seated.step (h : l.Seated handle) {e : Event N} (hact : l.act handle e = some l') :
    l'.Seated handle := by
  intro u i hi
  cases e with
  | started t =>
    obtain ⟨-, rfl⟩ := act_started hact
    rcases eq_or_ne u t with rfl | hu
    · simp [rmThreadStarted, hi]
    · have hne : i.val ≠ t.val := fun heq => hu (Fin.ext (hi.symm.trans heq))
      simpa [rmThreadStarted, hne, hu] using h u i hi
  | ended t =>
    obtain ⟨hlive, rfl⟩ := act_ended hact
    rcases eq_or_ne u t with rfl | hu
    · simpa [rmThreadEnded, hlive] using h u i hi
    · simpa [rmThreadEnded, hu] using h u i hi

/-- A thread that has started is found in its own slot. -/
theorem Seated.getTid (h : l.Seated handle) (hN : N ≤ MAXP)
    (hinj : Function.Injective handle) (hzero : ∀ t, handle t ≠ 0) (ht : l.phase t ≠ .unstarted) :
    l.registry.getTid (handle t) = some (t.castLE hN) := by
  rw [Roster.getTid_eq_some]
  refine ⟨by simpa [ht] using h t (t.castLE hN) rfl, fun i hi => ?_⟩
  have hlt : i.val < N := (Fin.lt_def.mp hi).trans t.isLt
  rw [h ⟨i, hlt⟩ i rfl]
  split_ifs
  · exact (hzero t).symm
  · exact hinj.ne fun heq => hi.ne (Fin.ext (Fin.mk.inj_iff.mp heq))

end Lifetime

end Cs342.ResourceManager
