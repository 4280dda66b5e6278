import Cs342.Library.Progress
import Cs342.ResourceManager.Account
import Cs342.ResourceManager.Avoidance
import Cs342.ResourceManager.Detection

/-!
# How a process ends

A process refines a session of the library: its states, with the registry filled up, are
states of a session. Each step that changes a process brings some thread closer to its
end, so a fair run comes to rest, and then whoever has not ended waits for a request
that cannot be granted. If no thread keeps what it was granted, nobody is left under
avoidance, and without it the detector counts those who are.

All this is about processes whose tables are not freed too early, before the last thread
has started.
-/

namespace Cs342.ResourceManager

open Library Manager

/-! ## What remains to be done -/

namespace View

variable {M : ℕ} {exist : Vec M} {v v' : View M}

def rank : Local M → ℕ
  | .running => 0
  | .blocked _ signalled => 1 + signalled.toNat

/-- A statement outweighs the signals its call can give to `n` threads. -/
def weight (n : ℕ) (v : View M) : ℕ := (n + 2) * v.todo.length + rank v.thread

theorem weight_signal (n : ℕ) (v : View M) : v.signal.weight n ≤ v.weight n + 1 := by
  obtain ⟨phase, l, todo, b, early⟩ := v
  cases l with
  | running => simp [weight, signal, Local.signal]
  | blocked w signalled =>
    cases signalled
    · simp [weight, signal, Local.signal, rank]
    · simp [weight, signal, Local.signal]

theorem Moves.weight_of_call (hm : v.Moves exist v') (n : ℕ) {stmt : Stmt M}
    (htodo : v.todo = stmt :: v'.todo) : v'.weight n + (n + 1) ≤ v.weight n := by
  cases hm with
  | granted | rechecks => simp at htodo
  | waits ok =>
    simp [weight, rank, mul_add]
    omega
  | starts | claims | returns | ends =>
    simp [weight, rank, mul_add]

theorem Moves.weight_of_wake (hm : v.Moves exist v') (n : ℕ) (htodo : v'.todo = v.todo) :
    v'.weight n < v.weight n := by
  cases hm <;> simp [weight, rank] at htodo ⊢

end View

namespace Application

variable {c : Application} {s s' : Process c.N c.M} {t : Fin c.N}

/-! ## Refinement of a session -/

/-- The registry once all threads have started. -/
def registry (c : Application) : Registry :=
  c.register Lifetime.fresh (List.finRange c.N)

theorem Inv.row_registry (h : c.Inv s) (t : Fin c.N) :
    (s.rm.reseat c.registry).row (c.handle t) = some t :=
  c.row_register h.fits (.refl _) rfl t

/-- What a thread function asks of the library is within the discipline of a session. -/
theorem Inv.disciplined (h : c.Inv s) {stmt : Stmt c.M} {rest : List (Stmt c.M)}
    (htodo : s.todo t = stmt :: rest) :
    (∀ v, stmt = .claim v → s.Disciplined (t, .claim v)) ∧
      ∀ u, stmt = .use u → s.Disciplined (t, u.call) := by
  have hnext := (h.stage t).next_cases htodo
  constructor
  · rintro v rfl
    obtain ⟨-, hearly, rfl⟩ : _ ∧ (s.view t).early = true ∧ v = (c.script t).claim := by
      simpa using hnext
    have hflags : s.claimed t = false ∧ s.requested t = false := by
      simpa [Process.view] using hearly
    exact ⟨hflags.1, hflags.2, (c.script t).claim_nonneg⟩
  · rintro u rfl
    obtain ⟨-, hu⟩ : _ ∧ u ∈ (c.script t).uses := by simpa using hnext
    have hamount := (c.script t).amount_nonneg u hu
    cases u <;> exact hamount

/-- A call of a process is an action of the session. -/
theorem Inv.session_step (h : c.Inv s) (ht : s.phase t ≠ .unstarted) {a : Call c.M}
    (hd : s.Disciplined (t, a)) (hact : s.library c.handle (t, a) = some s') :
    c.toSession.system.step (s.toSys.reseat c.registry) (s'.toSys.reseat c.registry) := by
  obtain ⟨-, sys, hsys, rfl⟩ := Process.library_eq_some hact
  refine ⟨(t, a), ?_⟩
  rw [Sys.act_eq_guarded, System.guarded_eq_some, Sys.call_reseat (h.row ht) (h.row_registry t),
    hsys]
  refine ⟨?_, rfl⟩
  cases a <;> exact hd

/-- With the registry filled up, the states of a process are states of its session. -/
theorem refines (hs : c.system.Reachable s) :
    c.toSession.system.Reachable (s.toSys.reseat c.registry) := by
  refine hs.simulate (f := fun s => s.toSys.reseat c.registry) ?_ ?_
  · rintro s ⟨rm, hinit, rfl⟩
    obtain ⟨-, rfl⟩ := rmInit_eq_some hinit
    exact ⟨Lifetime.fresh, _, List.finRange c.N, rfl, hinit, .refl _, rfl⟩
  · rintro s s' hr ⟨turn, hact⟩
    have h := inv hr
    cases turn with
    | wake t =>
      obtain ⟨-, sys, hsys, -⟩ := Process.library_eq_some hact
      have hb : s.phase t ≠ .unstarted := by
        cases hb : s.threads t with
        | running => simp [Sys.call, hb] at hsys
        | blocked v signalled => exact h.started_of_blocked hb
      exact .single (h.session_step (a := .recheck) hb trivial hact)
    | call t =>
      obtain ⟨stmt, rest, hrun, htodo, hexec⟩ := Process.act_call hact
      have hd := h.disciplined htodo
      have hstarted (hne : stmt ≠ .started) := h.started htodo hne
      -- the statement's own list is no concern of the session
      have hstep {a : Call c.M} (hne : stmt ≠ .started) (hd : s.Disciplined (t, a))
          (hlib : { s with todo := Function.update s.todo t rest }.library c.handle (t, a) =
            some s') :
          c.toSession.system.step (s.toSys.reseat c.registry) (s'.toSys.reseat c.registry) := by
        obtain ⟨hfreed, sys, hsys, rfl⟩ := Process.library_eq_some hlib
        have hact : s.library c.handle (t, a) = some { s with toSys := sys } := by
          rw [Process.library, if_pos hfreed, hsys]
          rfl
        have hsession := h.session_step (hstarted hne) hd hact
        exact hsession
      cases stmt with
      | started =>
        obtain ⟨l, -, rfl⟩ := Option.map_eq_some_iff.mp hexec
        exact .refl
      | ended =>
        obtain ⟨l, -, rfl⟩ := Option.map_eq_some_iff.mp hexec
        exact .refl
      | claim v => exact .single (hstep (by simp) (hd.1 v rfl) hexec)
      | use u => exact .single (hstep (by simp) (hd.2 u rfl) hexec)

/-! ## Coming to rest -/

/-- Each step that changes anything leaves less to be done. -/
theorem Inv.work_lt (h : c.Inv s) {turn : Turn c.N} (hact : s.act c.handle turn = some s')
    (hne : s' ≠ s) :
    ∑ t, (s'.view t).weight c.N < ∑ t, (s.view t).weight c.N := by
  cases turn with
  | call t =>
    obtain ⟨hturn, ⟨stmt, htodo⟩, -⟩ := h.call hact
    have hown := hturn.own.weight_of_call c.N htodo
    refine sum_lt_sum_of_pays t ?_ fun i hi => ?_
    · rw [Fintype.card_fin]
      exact (Nat.le_succ _).trans hown
    · rcases hturn.others with hsame | hsignal
      · rw [hsame i hi]
        exact Nat.le_succ _
      · rw [hsignal i hi]
        exact View.weight_signal _ _
  | wake t =>
    obtain ⟨htodo, -, heq | ⟨hturn, hothers⟩⟩ := h.wake hact
    · exact absurd heq hne
    · refine Finset.sum_lt_sum (fun i _ => ?_) ⟨t, Finset.mem_univ t,
        hturn.own.weight_of_wake c.N (congrFun htodo t)⟩
      rcases eq_or_ne i t with rfl | hi
      · exact (hturn.own.weight_of_wake c.N (congrFun htodo i)).le
      · rw [hothers i hi]

/-- A call on the row of a running thread goes through. -/
theorem call_enabled {N M : ℕ} {handle : Fin N → Handle} {s : Sys N M} {t : Fin N}
    (hrow : s.rm.row (handle t) = some t) (hrun : s.threads t = .running) :
    (∀ v, ∃ s', s.call handle (t, .claim v) = some s') ∧
      ∀ u : Use M, ∃ s', s.call handle (t, u.call) = some s' := by
  constructor
  · intro v
    simp [Sys.call, hrun, hrow]
  · intro u
    cases u <;> simp [Sys.call, Use.call, hrun, hrow]

/-- A running thread that has something left to do can do it. -/
theorem Inv.call_enabled (h : c.Inv s) (hfreed : s.freed = 0) (hrun : s.threads t = .running)
    {stmt : Stmt c.M} {rest : List (Stmt c.M)} (htodo : s.todo t = stmt :: rest) :
    ∃ s', s.act c.handle (.call t) = some s' := by
  have hact : s.act c.handle (.call t) =
      { s with todo := Function.update s.todo t rest }.exec c.handle t stmt := by
    simp only [Process.act, hrun, htodo]
  have hlibrary {a : Call c.M} (ha : ∃ sys, s.toSys.call c.handle (t, a) = some sys) :
      ∃ s', { s with todo := Function.update s.todo t rest }.library c.handle (t, a) = some s' := by
    obtain ⟨sys, hsys⟩ := ha
    simp [Process.library, hfreed, hsys]
  rw [hact]
  rcases (h.stage t).next_cases htodo with ⟨hphase, rfl⟩ | ⟨hphase, ⟨-, rfl⟩ | rfl | ⟨u, -, rfl⟩⟩
  · have hphase : s.phase t = .unstarted := hphase
    simp [Process.exec, Process.lifecycle, Lifetime.act, Process.lifetime, hphase]
  · exact hlibrary ((Application.call_enabled (h.row (h.started htodo (by simp))) hrun).1 _)
  · have hphase : s.phase t = .live := hphase
    simp [Process.exec, Process.lifecycle, Lifetime.act, Process.lifetime, hphase]
  · exact hlibrary ((Application.call_enabled (h.row (h.started htodo (by simp))) hrun).2 u)

/-- Where nothing changes any more and the tables are not freed too early, a thread has ended or
waits without an undelivered signal. -/
theorem settled (hs : c.system.Reachable s) (hquiet : c.system.Quiet s)
    (hlast : s.lifetime.FreedLast) {t : Fin c.N} (ht : s.phase t ≠ .ended) :
    ∃ v, s.threads t = .blocked v false := by
  have h := inv hs
  have hfreed : s.freed = 0 := Nat.eq_zero_of_not_pos fun hpos => ht (hlast hpos t)
  cases hb : s.threads t with
  | running =>
    cases htodo : s.todo t with
    | nil => exact absurd ((h.stage t).of_nil htodo) ht
    | cons stmt rest =>
      obtain ⟨s', hact⟩ := h.call_enabled hfreed hb htodo
      obtain rfl := hquiet s' ⟨_, hact⟩
      obtain ⟨-, ⟨stmt', hshrunk⟩, -⟩ := h.call hact
      simp at hshrunk
  | blocked v signalled =>
    cases signalled with
    | false => exact ⟨v, rfl⟩
    | true =>
      have hrow := h.row (h.started_of_blocked hb)
      have hcall : s.toSys.call c.handle (t, .recheck) =
          some (s.toSys.settle t v (s.rm.tryGrant t v)) := by
        simp [Sys.call, hb, hrow]
      have hact : s.act c.handle (.wake t) =
          some { s with toSys := s.toSys.settle t v (s.rm.tryGrant t v) } := by
        simp [Process.act, Process.library, hfreed, hcall]
      -- the round would use up the signal
      have hsame := congrArg (fun s => s.threads t) (hquiet _ ⟨_, hact⟩)
      rcases s.rm.tryGrant_cases t v with heq | heq <;> simp [heq, Sys.settle, hb] at hsame

/-- Conversely, then nothing changes any more. -/
theorem quiet_of_settled (ha : c.avoid = 0 ∨ c.avoid = 1) (hs : c.system.Reachable s)
    (hall : ∀ t, s.phase t = .ended ∨ ∃ v, s.threads t = .blocked v false) :
    c.system.Quiet s := by
  have h := inv hs
  have hsession := Session.inv ha (refines hs)
  rintro s' ⟨turn, hact⟩
  cases turn with
  | call t =>
    obtain ⟨stmt, rest, hrun, htodo, -⟩ := Process.act_call hact
    rcases hall t with hend | ⟨v, hb⟩
    · rcases (h.stage t).next_cases htodo with ⟨hphase, -⟩ | ⟨hphase, -⟩
      · exact absurd (hend.symm.trans hphase) nofun
      · exact absurd (hend.symm.trans hphase) nofun
    · exact absurd (hrun.symm.trans hb) nofun
  | wake t =>
    obtain ⟨-, sys, hsys, rfl⟩ := Process.library_eq_some hact
    rcases hall t with hend | ⟨v, hb⟩
    · have hrun : s.threads t = .running := ((h.stage t).of_ended hend).1
      simp [Sys.call, hrun] at hsys
    · have hno : ¬ s.rm.Grantable t v := Session.not_grantable ha (refines hs) hb
      have htry : s.rm.tryGrant t v = (.waiting, s.rm) := tryGrant_of_not_grantable
        (hsession.held_grant_nonneg t (hsession.nonneg_of_blocked hb)) hno
      simp only [Sys.call, hb, h.row (h.started_of_blocked hb), Option.map_some,
        Option.some.injEq] at hsys
      subst hsys
      have hsame : Function.update s.threads t (.blocked v false) = s.threads :=
        Function.update_eq_self_iff.mpr hb.symm
      rw [htry, Sys.settle, hsame]

theorem Inv.held_of_ended (h : c.Inv s) (hbal : (c.script t).Balanced c.exist)
    (ht : s.phase t = .ended) : s.rm.allocation t = 0 := by
  have hbooks := ((h.stage t).of_ended ht).2
  exact (congrArg Books.held hbooks).trans hbal

/-- Under avoidance a blocked thread that needs no more than is available is not held back. -/
theorem grantable_of_need_le {d : Session} {u : Sys d.N d.M} (ha : d.avoid = 1)
    (hs : d.system.Reachable u) {t : Fin d.N} {v : Vec d.M} {signalled : Bool}
    (hb : u.threads t = .blocked v signalled) (hneed : u.rm.need t ≤ u.rm.available) :
    u.rm.Grantable t v := by
  have h := Session.inv (.inr ha) hs
  have havailable : v ≤ u.rm.available := (h.le_need_of_blocked hb).trans hneed
  exact ⟨fun _ => havailable, fun _ =>
    ⟨(Session.safe ha hs).grant h.allocation_nonneg hneed (h.nonneg_of_blocked hb), havailable⟩⟩

/-- Under avoidance nobody is left behind. -/
theorem ended_of_quiet (ha : c.avoid = 1) (hbal : ∀ t, (c.script t).Balanced c.exist)
    (hs : c.system.Reachable s) (hquiet : c.system.Quiet s) (hlast : s.lifetime.FreedLast)
    (t : Fin c.N) : s.phase t = .ended := by
  by_contra ht
  have h := inv hs
  have hr := refines hs
  have hsession := Session.inv (.inr ha) hr
  set S := Finset.univ.filter fun t => s.phase t ≠ .ended with hS
  have hidle : ∀ i ∉ S, (s.toSys.reseat c.registry).rm.pool.held i = 0 := by
    intro i hi
    exact h.held_of_ended (hbal i) (by simpa [hS] using hi)
  -- somebody in a safe order is covered by what is available alone
  have hfree := ((Pool.safe_iff hsession.allocation_nonneg).mp (Session.safe ha hr)) S
    ⟨t, by simpa [hS] using ht⟩
  rw [Pool.stuck_iff_of_idle hidle] at hfree
  push Not at hfree
  obtain ⟨i, hi, hneed⟩ := hfree
  obtain ⟨v, hb⟩ := settled hs hquiet hlast (t := i) (by simpa [hS] using hi)
  exact Session.not_grantable (.inr ha) hr hb (grantable_of_need_le ha hr hb hneed)

/-- Without avoidance the detector counts those who have not ended. -/
theorem detection_of_quiet (ha : c.avoid = 0) (hbal : ∀ t, (c.script t).Balanced c.exist)
    (hs : c.system.Reachable s) (hquiet : c.system.Quiet s) (hlast : s.lifetime.FreedLast) :
    s.rm.rmDetection = (Finset.univ.filter fun t => s.phase t ≠ .ended).card := by
  have h := inv hs
  have hr := refines hs
  have hsession := Session.inv (.inl ha) hr
  set S := Finset.univ.filter fun t => s.phase t ≠ .ended with hS
  have hmem (i : Fin c.N) : i ∈ S ↔ s.phase i ≠ .ended := by simp [hS]
  have hlive : Lifetime.live s.phase = S := by
    ext i
    rw [Lifetime.mem_live, hmem]
    refine ⟨fun hi => by simp [hi], fun hi => ?_⟩
    obtain ⟨v, hb⟩ := settled hs hquiet hlast hi
    have := h.started_of_blocked hb
    cases hphase : s.phase i <;> simp_all
  have hcount : s.rm.tcount = S.card := hlive ▸ h.counted
  by_cases hzero : s.rm.tcount = 0
  · rw [rmDetection, if_pos hzero, ← hcount, hzero]
  · rw [rmDetection_eq _ hzero]
    congr 2
    ext i
    rw [Finset.mem_filter_univ]
    refine (firstPicker s.rm.requests).finish_eq_false_iff (p := s.rm.requestPool)
      hsession.allocation_nonneg ((Pool.stuck_iff_of_idle fun j hj => ?_).mpr fun j hj hle => ?_)
      (fun j hj => ?_) i
    · exact h.held_of_ended (hbal j) (by simpa [hS] using hj)
    · obtain ⟨v, hb⟩ := settled hs hquiet hlast ((hmem j).mp hj)
      refine Session.not_grantable (.inl ha) hr hb ⟨fun _ => ?_, fun ho => ?_⟩
      · exact hsession.requests_of_blocked hb ▸ hle
      · exact absurd (hsession.avoid.symm.trans ho) (by simp [ha])
    · have hended : s.phase j = .ended := by simpa [hS] using hj
      have hrun := ((h.stage j).of_ended hended).1
      have hnone : s.rm.requests j = 0 := by
        rw [show s.rm.requests j = (s.threads j).pending from hsession.requests j,
          show s.threads j = .running from hrun]
        rfl
      rw [show s.rm.requestPool.need j = 0 from hnone]
      exact hsession.available_nonneg

/-! ## The programs give back what they are granted -/

theorem balanced_app (AVOID : ℤ) (t : Fin (app AVOID).N) :
    ((app AVOID).script t).Balanced (app AVOID).exist := by
  have h1 : threadfunc1.Balanced fun _ => 8 := by decide +kernel
  have h2 : threadfunc2.Balanced fun _ => 8 := by decide +kernel
  have hall (t : Fin 2) :
      (if t.val = 0 then threadfunc1 else threadfunc2).Balanced fun _ => 8 := by
    split_ifs
    · exact h1
    · exact h2
  exact hall t

/-- `worker1` is refused its last request, and later the release of it. -/
theorem balanced_myapp (AVOID : ℤ) (t : Fin (myapp AVOID).N) :
    ((myapp AVOID).script t).Balanced (myapp AVOID).exist := by
  have h1 : worker1.Balanced (setarray 5 [7, 2, 6, 1, 1]) := by decide +kernel
  have h2 : worker2.Balanced (setarray 5 [7, 2, 6, 1, 1]) := by decide +kernel
  have h3 : worker3.Balanced (setarray 5 [7, 2, 6, 1, 1]) := by decide +kernel
  have hall (t : Fin 3) : (if t.val = 0 then worker1 else if t.val = 1 then worker2 else
      worker3).Balanced (setarray 5 [7, 2, 6, 1, 1]) := by
    split_ifs
    · exact h1
    · exact h2
    · exact h3
  exact hall t

/-! ## Fair runs -/

def trace (c : Application) (turns : List (Turn c.N)) : ℕ → Process c.N c.M :=
  System.trace (Process.act c.handle) c.start turns

theorem settles {r : ℕ → Process c.N c.M} (hr : c.system.Run r) (hfair : c.system.Fair r) :
    ∃ n, c.system.Quiet (r n) ∧ ∀ m, n ≤ m → r m = r n :=
  hr.settles hfair (fun s => ∑ t, (s.view t).weight c.N) fun _ _ hs ⟨_, hact⟩ hne =>
    (inv hs).work_lt hact hne

/-- Without avoidance every fair run comes to rest too, and there the detector returns the number
of threads that have not ended: 0 exactly when `main` can join them all. -/
theorem detection_at_rest (ha : c.avoid = 0) (hbal : ∀ t, (c.script t).Balanced c.exist)
    {r : ℕ → Process c.N c.M} (hr : c.system.Run r) (hfair : c.system.Fair r) :
    ∃ n, (∀ m, n ≤ m → r m = r n) ∧ ((r n).lifetime.FreedLast →
      (r n).rm.rmDetection = (Finset.univ.filter fun t => (r n).phase t ≠ .ended).card ∧
        ((r n).rm.rmDetection = 0 ↔ ∀ t, (r n).phase t = .ended)) := by
  obtain ⟨n, hquiet, hrest⟩ := settles hr hfair
  refine ⟨n, hrest, fun hlast => ?_⟩
  have hcount := detection_of_quiet ha hbal (hr.reachable n) hquiet hlast
  refine ⟨hcount, ?_⟩
  rw [hcount, Nat.cast_eq_zero, Finset.card_eq_zero, Finset.filter_eq_empty_iff]
  simp

/-- In myapp.c all three threads may wait for their second request for good. -/
def deadlockTurns : List (Turn (myapp 0).N) :=
  (List.replicate 4 ((List.finRange (myapp 0).N).map .call)).flatten

theorem detection_at_rest_myapp :
    ∃ n, (∀ m, n ≤ m → (myapp 0).trace deadlockTurns m = (myapp 0).trace deadlockTurns n) ∧
      (((myapp 0).trace deadlockTurns n).lifetime.FreedLast →
        ((myapp 0).trace deadlockTurns n).rm.rmDetection = (Finset.univ.filter fun t =>
            ((myapp 0).trace deadlockTurns n).phase t ≠ .ended).card ∧
          (((myapp 0).trace deadlockTurns n).rm.rmDetection = 0 ↔
            ∀ t, ((myapp 0).trace deadlockTurns n).phase t = .ended)) := by
  have hrun : (myapp 0).system.Run ((myapp 0).trace deadlockTurns) :=
    System.run_trace ((myapp 0).init_start (by decide) (by decide)) deadlockTurns
  have hend : ∀ t : Fin (myapp 0).N,
      ((myapp 0).trace deadlockTurns deadlockTurns.length).threads t =
        .blocked (((myapp 0).trace deadlockTurns deadlockTurns.length).rm.requests t) false := by
    decide +kernel
  have hquiet : (myapp 0).system.Quiet ((myapp 0).trace deadlockTurns deadlockTurns.length) :=
    quiet_of_settled (.inl rfl) (hrun.reachable _) fun t => .inr ⟨_, hend t⟩
  exact detection_at_rest rfl (balanced_myapp 0) hrun (System.fair_trace hquiet)

end Application

end Cs342.ResourceManager
