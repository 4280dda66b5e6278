import Mathlib.Algebra.BigOperators.Group.Finset.Basic
import Mathlib.Data.List.FinRange
import Cs342.Library.Reduction

/-!
# The resource manager library (rm.c)

The globals of `rm.c` and its functions. A matrix row or a vector is a function on
the resource types, and a loop over `i < M` is the operation on the whole vector.
Values are integers: in every run of a session they stay between 0 and the existing
resources, so no C `int` wraps (`Session.act_eq_int`). For tables and arguments of
any kind `ResourceManager.Ints` has the functions on `int`s.

A call names the calling thread by its row, the value of
`get_tid(pthread_self())`; `Manager.row` is that lookup. `rm_request` gives up the
mutex in three ways, which `Verdict` names; a thread woken in
`pthread_cond_wait` continues at `tryGrant`.
-/

namespace Cs342.ResourceManager

open Library

def MAXR : ℕ := 100
def MAXP : ℕ := 100

/-- A `pthread_t`; the zeroed `tids` table holds 0. -/
abbrev Handle := ℕ

/-- A vector with one entry for each of `M` resource types. -/
abbrev Vec (M : ℕ) := Fin M → ℤ

/-- The globals that `rm_init` does not set. -/
structure Registry where
  tcount : ℤ
  tids : Fin MAXP → Handle

/-- The globals of the library for `N` threads and `M` resource types. -/
structure Manager (N M : ℕ) extends Registry where
  DA : ℤ
  ExistingRes : Vec M
  maxDemand : Fin N → Vec M
  allocation : Fin N → Vec M
  need : Fin N → Vec M
  requests : Fin N → Vec M
  available : Vec M

/-- The first slot of `tids` that holds the handle; `none` is the return value -1. -/
def Registry.getTid (g : Registry) (selfTid : Handle) : Option (Fin MAXP) :=
  (List.finRange MAXP).find? fun i => g.tids i == selfTid

def rmThreadStarted (g : Registry) (self : Handle) (tid : ℕ) : Registry where
  tcount := g.tcount + 1
  tids i := if i.val = tid then self else g.tids i

/-- Whether the tables, the condition variables and the mutex are freed, and the globals after
the call. -/
def rmThreadEnded (g : Registry) : Bool × Registry :=
  let g := { g with tcount := g.tcount - 1 }
  (g.tcount == 0, g)

/-- `none` is the return value -1. A negative count makes every loop over it empty. -/
def rmInit (g : Registry) (pCount rCount : ℤ) (rExist : ℕ → ℤ) (avoid : ℤ) :
    Option (Manager pCount.toNat rCount.toNat) :=
  if pCount > MAXP ∨ rCount > MAXR ∨ g.tcount > 0 then none
  else some
    { toRegistry := g
      DA := avoid
      ExistingRes := fun i => rExist i
      maxDemand := fun _ _ => 0
      allocation := fun _ _ => 0
      need := fun _ _ => 0
      requests := fun _ _ => 0
      available := fun i => rExist i }

theorem rmInit_eq_some {g : Registry} {pCount rCount : ℤ} {rExist : ℕ → ℤ} {avoid : ℤ}
    {rm : Manager pCount.toNat rCount.toNat} (h : rmInit g pCount rCount rExist avoid = some rm) :
    (pCount ≤ MAXP ∧ rCount ≤ MAXR ∧ g.tcount ≤ 0) ∧
      rm = ⟨g, avoid, fun i => rExist i, 0, 0, 0, 0, fun i => rExist i⟩ := by
  unfold rmInit at h
  split_ifs at h with hcount
  refine ⟨?_, (Option.some.inj h).symm⟩
  omega

/-- Some entry of `arr1` is above that of `arr2`: the test every bound-checking loop makes. -/
def anyAbove {M : ℕ} (arr1 arr2 : Vec M) : Bool :=
  (List.finRange M).any fun i => decide (arr1 i > arr2 i)

def arrLessThan {M : ℕ} (arr1 arr2 : Vec M) : Bool := !anyAbove arr1 arr2

@[simp] theorem arrLessThan_iff {M : ℕ} (a b : Vec M) : arrLessThan a b = true ↔ a ≤ b := by
  simp [arrLessThan, anyAbove, Pi.le_def]

@[simp] theorem arrLessThan_eq_false {M : ℕ} (a b : Vec M) :
    arrLessThan a b = false ↔ ¬ a ≤ b := by
  rw [← arrLessThan_iff, Bool.not_eq_true]

@[simp] theorem anyAbove_iff {M : ℕ} (a b : Vec M) : anyAbove a b = true ↔ ¬ a ≤ b := by
  rw [← arrLessThan_eq_false, arrLessThan, Bool.not_eq_false']

variable {N M : ℕ}

/-- The first unfinished thread whose row is at most `work`, or `none` for `x = -1`. -/
def firstBelow (rows : Fin N → Vec M) (work : Vec M) (finish : Fin N → Bool) : Option (Fin N) :=
  (List.finRange N).find? fun i => !finish i && arrLessThan (rows i) work

/-- `firstBelow` as a picker for the reduction of `rows`. -/
def firstPicker (rows : Fin N → Vec M) : Picker rows where
  pick := firstBelow rows
  sound h := by simpa using List.find?_some h
  complete h i hi := by simpa [hi] using List.find?_eq_none.mp h i (List.mem_finRange i)

namespace Manager

/-- The row that `get_tid(pthread_self())` names; `none` is an index outside the tables. -/
def row (s : Manager N M) (self : Handle) : Option (Fin N) :=
  match s.getTid self with
  | none => none
  | some i => if h : i.val < N then some ⟨i, h⟩ else none

def isAvailable (s : Manager N M) (request : Vec M) : Bool := !anyAbove request s.available

/-- The verdict, and the globals after the tentative allocation has been undone. The loop
adds the allocation of the first coverable thread to `work` until there is none. -/
def isStateSafe (s : Manager N M) (tid : Fin N) (request : Vec M) : Bool × Manager N M :=
  let work := s.available - request
  let s := { s with need := Function.update s.need tid (s.need tid - request) }
  let s := { s with allocation := Function.update s.allocation tid (s.allocation tid + request) }
  let finish := (firstPicker s.need).finish s.allocation work
  let ret := (List.finRange N).all finish
  let s := { s with need := Function.update s.need tid (s.need tid + request) }
  let s := { s with allocation := Function.update s.allocation tid (s.allocation tid - request) }
  (ret, s)

/-- The return value, and the globals after the call. -/
def rmClaim (s : Manager N M) (tid : Fin N) (claim : Vec M) : ℤ × Manager N M :=
  if anyAbove claim s.ExistingRes then (-1, s)
  else (0, { s with
    maxDemand := Function.update s.maxDemand tid claim
    need := Function.update s.need tid claim })

/-- How a critical section of `rm_request` ends: the call returns -1, waits on its
condition variable, or returns 0. -/
inductive Verdict where
  | rejected
  | waiting
  | granted
  deriving DecidableEq, Repr

/-- The conditions of the two waiting loops. -/
def mustWait (s : Manager N M) (tid : Fin N) (request : Vec M) : Bool × Manager N M :=
  if s.DA == 0 && !s.isAvailable request then (true, s)
  else if s.DA == 1 then
    let (safe, s) := s.isStateSafe tid request
    (!safe || !s.isAvailable request, s)
  else (false, s)

/-- The allocation after the waiting loops. -/
def allocate (s : Manager N M) (tid : Fin N) (request : Vec M) : Manager N M :=
  { s with
    available := s.available - request
    allocation := Function.update s.allocation tid (s.allocation tid + request)
    need := Function.update s.need tid (s.need tid - request)
    requests := Function.update s.requests tid 0 }

/-- From the waiting loops to the end of the critical section; a woken thread re-enters here. -/
def tryGrant (s : Manager N M) (tid : Fin N) (request : Vec M) : Verdict × Manager N M :=
  match s.mustWait tid request with
  | (true, s) => (.waiting, s)
  | (false, s) => (.granted, s.allocate tid request)

/-- `rm_request` up to its first `pthread_cond_wait` or its return. -/
def rmRequest (s : Manager N M) (tid : Fin N) (request : Vec M) : Verdict × Manager N M :=
  if anyAbove request (s.need tid) then (.rejected, s)
  else if anyAbove request s.ExistingRes then (.rejected, s)
  else { s with requests := Function.update s.requests tid request }.tryGrant tid request

/-- The return value, which condition variables were signalled, and the globals after
the call. -/
def rmRelease (s : Manager N M) (tid : Fin N) (release : Vec M) :
    ℤ × (Fin N → Bool) × Manager N M :=
  if anyAbove release (s.allocation tid) then (-1, fun _ => false, s)
  else (0, fun _ => true, { s with
    available := s.available + release
    allocation := Function.update s.allocation tid (s.allocation tid - release)
    need := Function.update s.need tid (s.need tid + release) })

/-- The number of threads the reduction of `requests` leaves unfinished. -/
def rmDetection (s : Manager N M) : ℤ :=
  if s.tcount = 0 then 0
  else (List.finRange N).countP fun i =>
    !(firstPicker s.requests).finish s.allocation s.available i

end Manager

end Cs342.ResourceManager
