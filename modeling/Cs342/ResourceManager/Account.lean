import Cs342.ResourceManager.Application

/-!
# The account of one thread

Of a process each thread sees only its own rows. `Moves` is what one of its steps does to
them, and `Stage` tells them from the part of its function that it has executed: neither
the other threads nor the avoidance flag matter. Other threads can only signal it.
-/

namespace Cs342.ResourceManager

open Library Manager

variable {N M : ℕ}

/-! ## The account of one thread -/

/-- The rows of a thread in `need` and `allocation`. -/
structure Books (M : ℕ) where
  need : Vec M
  held : Vec M

namespace Books

def grant (b : Books M) (v : Vec M) : Books M := ⟨b.need - v, b.held + v⟩

/-- The checks of `rm_request` pass. -/
def Accepts (exist : Vec M) (b : Books M) (v : Vec M) : Prop := v ≤ b.need ∧ v ≤ exist

instance (exist : Vec M) (b : Books M) (v : Vec M) : Decidable (b.Accepts exist v) :=
  inferInstanceAs (Decidable ((∀ _, _) ∧ ∀ _, _))

/-- The rows when the call has returned. -/
def after (exist : Vec M) (b : Books M) : Use M → Books M
  | .request v => if b.Accepts exist v then b.grant v else b
  | .release v => if arrLessThan v b.held then b.grant (-v) else b

end Books

namespace Script

/-- The rows after the claim, which is refused when it exceeds what exists. -/
def opened (exist : Vec M) (p : Script M) : Books M :=
  if arrLessThan p.claim exist then ⟨p.claim, 0⟩ else ⟨0, 0⟩

/-- The rows after these uses. -/
def books (exist : Vec M) (p : Script M) (done : List (Use M)) : Books M :=
  done.foldl (Books.after exist) (p.opened exist)

@[simp] theorem books_nil (exist : Vec M) (p : Script M) : p.books exist [] = p.opened exist := rfl

@[simp] theorem books_append (exist : Vec M) (p : Script M) (done : List (Use M)) (u : Use M) :
    p.books exist (done ++ [u]) = (p.books exist done).after exist u := by
  simp [books]

theorem tail_next {uses : List (Use M)} {stmt : Stmt M} {rest : List (Stmt M)}
    (h : tail uses = stmt :: rest) : stmt = .ended ∨ ∃ u ∈ uses, stmt = .use u := by
  cases uses with
  | nil => exact .inl (List.cons.inj h).1.symm
  | cons u uses => exact .inr ⟨u, List.mem_cons_self, (List.cons.inj h).1.symm⟩

theorem tail_ne_nil (uses : List (Use M)) : tail uses ≠ [] := by
  cases uses <;> simp [tail]

/-- The thread gives back all it has been given. -/
def Balanced (exist : Vec M) (p : Script M) : Prop := (p.books exist p.uses).held = 0

instance (exist : Vec M) (p : Script M) : Decidable (p.Balanced exist) :=
  inferInstanceAs (Decidable (_ = _))

end Script

/-! ## What one thread sees -/

structure View (M : ℕ) where
  phase : Phase
  thread : Local M
  todo : List (Stmt M)
  books : Books M
  /-- It has neither claimed nor requested. -/
  early : Bool

namespace View

def signal (v : View M) : View M := { v with thread := v.thread.signal }

/-- What a step of the thread can do to its view. -/
inductive Moves (exist : Vec M) : View M → View M → Prop where
  | starts {todo b early} :
      Moves exist ⟨.unstarted, .running, .started :: todo, b, early⟩
        ⟨.live, .running, todo, b, early⟩
  | claims {phase v todo b early early'} :
      Moves exist ⟨phase, .running, .claim v :: todo, b, early⟩
        ⟨phase, .running, todo, if arrLessThan v exist then ⟨v, b.held⟩ else b, early'⟩
  | returns {phase u todo b early early'} :
      Moves exist ⟨phase, .running, .use u :: todo, b, early⟩
        ⟨phase, .running, todo, b.after exist u, early'⟩
  | waits {phase v todo b early early'} (ok : b.Accepts exist v) :
      Moves exist ⟨phase, .running, .use (.request v) :: todo, b, early⟩
        ⟨phase, .blocked v false, todo, b, early'⟩
  | granted {phase todo v signalled b early} :
      Moves exist ⟨phase, .blocked v signalled, todo, b, early⟩
        ⟨phase, .running, todo, b.grant v, early⟩
  | rechecks {phase todo v b early} :
      Moves exist ⟨phase, .blocked v true, todo, b, early⟩
        ⟨phase, .blocked v false, todo, b, early⟩
  | ends {todo b early} :
      Moves exist ⟨.live, .running, .ended :: todo, b, early⟩
        ⟨.ended, .running, todo, b, early⟩

end View

/-- How far a thread has come in its function, and what its rows then are. -/
inductive Stage (exist : Vec M) (p : Script M) : View M → Prop where
  | unstarted : Stage exist p ⟨.unstarted, .running, p.body, ⟨0, 0⟩, true⟩
  | started : Stage exist p ⟨.live, .running, .claim p.claim :: Script.tail p.uses, ⟨0, 0⟩, true⟩
  | running {done rest early} (split : p.uses = done ++ rest) :
      Stage exist p ⟨.live, .running, Script.tail rest, p.books exist done, early⟩
  | waiting {done v rest signalled early} (split : p.uses = done ++ .request v :: rest)
      (ok : (p.books exist done).Accepts exist v) :
      Stage exist p ⟨.live, .blocked v signalled, Script.tail rest, p.books exist done, early⟩
  | ended {early} : Stage exist p ⟨.ended, .running, [], p.books exist p.uses, early⟩

namespace Stage

variable {exist : Vec M} {p : Script M} {v v' : View M}

theorem signal (h : Stage exist p v) : Stage exist p v.signal := by
  cases h with
  | unstarted => exact .unstarted
  | started => exact .started
  | running split => exact .running split
  | waiting split ok => exact .waiting split ok
  | ended => exact .ended

/-- What a thread is at tells how far it has come. -/
theorem next_cases (h : Stage exist p v) {stmt : Stmt M} {rest : List (Stmt M)}
    (htodo : v.todo = stmt :: rest) :
    (v.phase = .unstarted ∧ stmt = .started) ∨
      v.phase = .live ∧ ((v.early = true ∧ stmt = .claim p.claim) ∨ stmt = .ended ∨
        ∃ u ∈ p.uses, stmt = .use u) := by
  cases h with
  | unstarted => exact .inl ⟨rfl, (List.cons.inj htodo).1.symm⟩
  | started => exact .inr ⟨rfl, .inl ⟨rfl, (List.cons.inj htodo).1.symm⟩⟩
  | running split =>
    refine .inr ⟨rfl, .inr ((Script.tail_next htodo).imp_right ?_)⟩
    rintro ⟨u, hu, rfl⟩
    exact ⟨u, split ▸ List.mem_append_right _ hu, rfl⟩
  | waiting split =>
    refine .inr ⟨rfl, .inr ((Script.tail_next htodo).imp_right ?_)⟩
    rintro ⟨u, hu, rfl⟩
    exact ⟨u, split ▸ List.mem_append_right _ (List.mem_cons_of_mem _ hu), rfl⟩
  | ended => simp at htodo

theorem of_nil (h : Stage exist p v) (htodo : v.todo = []) : v.phase = .ended := by
  cases h with
  | unstarted => simp [Script.body] at htodo
  | started => simp at htodo
  | running => exact absurd htodo (Script.tail_ne_nil _)
  | waiting => exact absurd htodo (Script.tail_ne_nil _)
  | ended => rfl

theorem of_ended (h : Stage exist p v) (hphase : v.phase = .ended) :
    v.thread = .running ∧ v.books = p.books exist p.uses := by
  cases h with
  | unstarted | started | running | waiting => simp at hphase
  | ended => exact ⟨rfl, rfl⟩

theorem moves (h : Stage exist p v) (hm : v.Moves exist v') : Stage exist p v' := by
  cases h with
  | unstarted =>
    cases hm
    exact .started
  | started =>
    cases hm with
    | claims =>
      have hstage (early : Bool) :
          Stage exist p ⟨.live, .running, Script.tail p.uses, p.books exist [], early⟩ :=
        .running (List.nil_append p.uses).symm
      simpa [Script.opened] using hstage _
  | @running done rest early split =>
    cases rest with
    | nil =>
      cases hm with
      | ends =>
        rw [List.append_nil] at split
        exact split ▸ .ended
    | cons u rest =>
      have hdone : p.uses = done ++ [u] ++ rest := by simpa using split
      cases hm with
      | returns => exact Script.books_append exist p done u ▸ .running hdone
      | waits ok => exact .waiting split ok
  | @waiting done w rest signalled early split ok =>
    cases hm with
    | granted =>
      have hbooks : (p.books exist done).grant w = p.books exist (done ++ [.request w]) := by
        rw [Script.books_append, Books.after, if_pos ok]
      rw [hbooks]
      exact .running (by simp [split])
    | rechecks => exact .waiting split ok
  | ended => cases hm

end Stage

/-! ## The library as one thread sees it -/

namespace Manager

variable {s : Manager N M} {t : Fin N}

def books (s : Manager N M) (t : Fin N) : Books M := ⟨s.need t, s.allocation t⟩

theorem books_after_of_ne {i : Fin N} (hi : i ≠ t) (op : Op M) :
    (s.after t op).books i = s.books i := by
  have h := s.sameElsewhere_after t op
  rw [books, books, h.need i hi, h.allocation i hi]

theorem books_rmClaim (s : Manager N M) (t : Fin N) (v : Vec M) : (s.rmClaim t v).2.books t =
    if arrLessThan v s.ExistingRes then ⟨v, (s.books t).held⟩ else s.books t := by
  by_cases h : v ≤ s.ExistingRes <;> simp [rmClaim, books, h]

theorem books_rmRelease (s : Manager N M) (t : Fin N) (v : Vec M) :
    (s.rmRelease t v).2.2.books t = (s.books t).after s.ExistingRes (.release v) := by
  by_cases h : v ≤ s.allocation t <;>
    simp [rmRelease, Books.after, books, Books.grant, h, sub_eq_add_neg]

theorem books_allocate (s : Manager N M) (t : Fin N) (v : Vec M) :
    (s.allocate t v).books t = (s.books t).grant v := by
  simp [books, allocate, Books.grant]

/-- The waiting loops leave the tables alone or allocate. -/
theorem tryGrant_cases (s : Manager N M) (t : Fin N) (v : Vec M) :
    s.tryGrant t v = (.waiting, s) ∨ s.tryGrant t v = (.granted, s.allocate t v) := by
  rw [tryGrant_eq]
  split_ifs
  · exact .inl rfl
  · exact .inr rfl

/-- A request is refused, or it waits or is granted with its row set. -/
theorem rmRequest_cases (s : Manager N M) (t : Fin N) (v : Vec M) :
    let r := { s with requests := Function.update s.requests t v }
    (¬ (s.books t).Accepts s.ExistingRes v ∧ s.rmRequest t v = (.rejected, s)) ∨
      (s.books t).Accepts s.ExistingRes v ∧
        (s.rmRequest t v = (.waiting, r) ∨ s.rmRequest t v = (.granted, r.allocate t v)) := by
  intro r
  unfold rmRequest
  split_ifs with hneed hexist
  · exact .inl ⟨fun h => (anyAbove_iff _ _).mp hneed h.1, rfl⟩
  · exact .inl ⟨fun h => (anyAbove_iff _ _).mp hexist h.2, rfl⟩
  · rw [anyAbove_iff, not_not] at hneed hexist
    exact .inr ⟨⟨hneed, hexist⟩, r.tryGrant_cases t v⟩

end Manager

namespace Process

variable {handle : Fin N → Handle} {s s' : Process N M} {t i : Fin N}

def view (s : Process N M) (t : Fin N) : View M :=
  ⟨s.phase t, s.threads t, s.todo t, s.rm.books t, !(s.claimed t || s.requested t)⟩

/-- A turn of `t` is a move of its view, and at most signals the others. -/
structure Turned (t : Fin N) (s s' : Process N M) : Prop where
  exist : s'.rm.ExistingRes = s.rm.ExistingRes
  own : (s.view t).Moves s.rm.ExistingRes (s'.view t)
  others : (∀ i ≠ t, s'.view i = s.view i) ∨ ∀ i ≠ t, s'.view i = (s.view i).signal

theorem library_eq_some {a : Fin N × Call M} (h : s.library handle a = some s') :
    s.freed = 0 ∧ ∃ sys, s.toSys.call handle a = some sys ∧ s' = { s with toSys := sys } := by
  unfold library at h
  split_ifs at h with hfreed
  obtain ⟨sys, hsys, rfl⟩ := Option.map_eq_some_iff.mp h
  exact ⟨hfreed, sys, hsys, rfl⟩

theorem view_eq {phase : Phase} {l : Local M} {todo : List (Stmt M)}
    (hphase : s.phase t = phase) (hthread : s.threads t = l) (htodo : s.todo t = todo) :
    s.view t = ⟨phase, l, todo, s.rm.books t, !(s.claimed t || s.requested t)⟩ := by
  rw [view, hphase, hthread, htodo]

section Library

variable {rest : List (Stmt M)} {v : Vec M} (hrow : s.rm.row (handle t) = some t)

include hrow

theorem turned_claim (hrun : s.threads t = .running) (htodo : s.todo t = .claim v :: rest)
    (h : { s with todo := Function.update s.todo t rest }.library handle (t, .claim v) = some s') :
    Turned t s s' := by
  obtain ⟨-, sys, hsys, rfl⟩ := library_eq_some h
  simp only [Sys.call, hrun, hrow, if_true, Option.map_some, Option.some.injEq] at hsys
  subst hsys
  refine ⟨?_, ?_, .inl fun i hi => ?_⟩
  · simp only [rmClaim]
    split_ifs <;> rfl
  · rw [view_eq rfl hrun htodo]
    have hbooks := s.rm.books_rmClaim t v
    simp only [view, hrun, Function.update_self, hbooks]
    exact .claims
  · have hbooks := s.rm.books_after_of_ne hi (.claim v)
    simp only [after] at hbooks
    simp [view, hi, hbooks]

theorem turned_request (hrun : s.threads t = .running)
    (htodo : s.todo t = .use (.request v) :: rest)
    (h : { s with todo := Function.update s.todo t rest }.library handle (t, .request v) =
      some s') : Turned t s s' := by
  obtain ⟨-, sys, hsys, rfl⟩ := library_eq_some h
  simp only [Sys.call, hrun, hrow, if_true, Option.map_some, Option.some.injEq] at hsys
  subst hsys
  have hothers (i : Fin N) (hi : i ≠ t) := s.rm.books_after_of_ne hi (.request v)
  simp only [after] at hothers
  rcases s.rm.rmRequest_cases t v with ⟨no, heq⟩ | ⟨ok, heq | heq⟩ <;>
    simp only [heq, Sys.settle] at hothers ⊢ <;>
    refine ⟨rfl, ?_, .inl fun i hi => ?_⟩
  · have hm (early early' : Bool) := @View.Moves.returns M s.rm.ExistingRes (s.phase t)
      (.request v) rest (s.rm.books t) early early'
    simp only [Books.after, if_neg no] at hm
    rw [view_eq rfl hrun htodo]
    simp only [view, hrun, Function.update_self]
    exact hm _ _
  · simp [view, hi]
  · rw [view_eq rfl hrun htodo]
    simp only [view, Function.update_self]
    exact .waits ok
  · simpa [view, hi] using hothers i hi
  · have hafter : (s.rm.books t).grant v = (s.rm.books t).after s.rm.ExistingRes (.request v) :=
      (if_pos ok).symm
    rw [view_eq rfl hrun htodo]
    simp only [view, Function.update_self, books_allocate]
    exact hafter ▸ .returns
  · simpa [view, hi] using hothers i hi

theorem turned_release (hrun : s.threads t = .running)
    (htodo : s.todo t = .use (.release v) :: rest)
    (h : { s with todo := Function.update s.todo t rest }.library handle (t, .release v) =
      some s') : Turned t s s' := by
  obtain ⟨-, sys, hsys, rfl⟩ := library_eq_some h
  simp only [Sys.call, hrun, hrow, if_true, Option.map_some, Option.some.injEq] at hsys
  subst hsys
  have hbooks := s.rm.books_rmRelease t v
  have hothers (i : Fin N) (hi : i ≠ t) := s.rm.books_after_of_ne hi (.release v)
  simp only [after] at hothers
  refine ⟨?_, ?_, ?_⟩
  · simp only [rmRelease]
    split_ifs <;> rfl
  · have hthread : (if (s.rm.rmRelease t v).2.1 t then (s.threads t).signal else s.threads t) =
        .running := by
      rw [hrun]
      exact ite_self _
    rw [view_eq rfl hrun htodo]
    simp only [view, hthread, Function.update_self, hbooks]
    exact .returns
  · by_cases hle : v ≤ s.rm.allocation t
    · refine .inr fun i hi => ?_
      have hsignal : (s.rm.rmRelease t v).2.1 i = true := by simp [rmRelease, hle]
      simp [view, View.signal, hi, hothers i hi, hsignal]
    · refine .inl fun i hi => ?_
      have hsignal : (s.rm.rmRelease t v).2.1 i = false := by simp [rmRelease, hle]
      simp [view, hi, hothers i hi, hsignal]

end Library

theorem turned_started (hrun : s.threads t = .running) {rest : List (Stmt M)}
    (htodo : s.todo t = .started :: rest)
    (h : { s with todo := Function.update s.todo t rest }.lifecycle handle (.started t) = some s') :
    Turned t s s' := by
  obtain ⟨l, hl, rfl⟩ := Option.map_eq_some_iff.mp h
  obtain ⟨hphase, rfl⟩ := Lifetime.act_started hl
  refine ⟨rfl, ?_, .inl fun i hi => by simp [view, books, lifetime, hi]⟩
  rw [view_eq hphase hrun htodo]
  simp only [view, hrun, Function.update_self]
  exact .starts

theorem turned_ended (hrun : s.threads t = .running) {rest : List (Stmt M)}
    (htodo : s.todo t = .ended :: rest)
    (h : { s with todo := Function.update s.todo t rest }.lifecycle handle (.ended t) = some s') :
    Turned t s s' := by
  obtain ⟨l, hl, rfl⟩ := Option.map_eq_some_iff.mp h
  obtain ⟨hphase, rfl⟩ := Lifetime.act_ended hl
  refine ⟨rfl, ?_, .inl fun i hi => by simp [view, books, lifetime, hi]⟩
  rw [view_eq hphase hrun htodo]
  simp only [view, hrun, Function.update_self]
  exact .ends

theorem act_call (h : s.act handle (.call t) = some s') : ∃ stmt rest,
    s.threads t = .running ∧ s.todo t = stmt :: rest ∧
      { s with todo := Function.update s.todo t rest }.exec handle t stmt = some s' := by
  simp only [act] at h
  split at h
  · next hrun htodo => exact ⟨_, _, hrun, htodo, h⟩
  · simp at h

end Process

/-! ## Every run -/

namespace Process

variable {handle : Fin N → Handle} {s s' : Process N M} {t : Fin N}

theorem of_lifecycle {e : Event N} (h : s.lifecycle handle e = some s') :
    s'.todo = s.todo ∧ s.lifetime.act handle e = some s'.lifetime := by
  obtain ⟨l, hl, rfl⟩ := Option.map_eq_some_iff.mp h
  exact ⟨rfl, hl⟩

theorem of_library (hrow : s.rm.row (handle t) = some t) {a : Call M}
    (h : s.library handle (t, a) = some s') : s'.todo = s.todo ∧ s'.lifetime = s.lifetime := by
  obtain ⟨-, sys, hsys, rfl⟩ := library_eq_some h
  refine ⟨rfl, ?_⟩
  rw [lifetime, Sys.registry_of_call hrow hsys]
  rfl

end Process

/-- What holds between the steps of a process. -/
structure Application.Inv (c : Application) (s : Process c.N c.M) : Prop where
  fits : c.N ≤ MAXP
  exist : s.rm.ExistingRes = c.exist
  seated : s.lifetime.Seated c.handle
  counted : s.lifetime.Counted
  stage : ∀ t, Stage c.exist (c.script t) (s.view t)

namespace Application

variable {c : Application} {s s' : Process c.N c.M} {t : Fin c.N}

theorem Inv.row (h : c.Inv s) (ht : s.phase t ≠ .unstarted) : s.rm.row (c.handle t) = some t := by
  have hget := h.seated.getTid h.fits c.handle_injective c.handle_ne_zero ht
  rw [Manager.row, show s.rm.getTid (c.handle t) = _ from hget]
  exact dif_pos t.isLt

/-- A thread at another statement than its first has started. -/
theorem Inv.started (h : c.Inv s) {stmt : Stmt c.M} {rest : List (Stmt c.M)}
    (htodo : s.todo t = stmt :: rest) (hstmt : stmt ≠ .started) : s.phase t ≠ .unstarted := by
  intro hphase
  rcases (h.stage t).next_cases htodo with ⟨-, heq⟩ | ⟨hlive, -⟩
  · exact hstmt heq
  · exact absurd (hphase.symm.trans hlive) nofun

theorem Inv.call (h : c.Inv s) (hact : s.act c.handle (.call t) = some s') :
    Process.Turned t s s' ∧ (∃ stmt, s.todo t = stmt :: s'.todo t) ∧
      (s'.lifetime = s.lifetime ∨ ∃ e, s.lifetime.act c.handle e = some s'.lifetime) := by
  obtain ⟨stmt, rest, hrun, htodo, hexec⟩ := Process.act_call hact
  have htail {stmt : Stmt c.M} (htodo : s.todo t = stmt :: rest)
      (htodo' : s'.todo = Function.update s.todo t rest) :
      ∃ stmt, s.todo t = stmt :: s'.todo t := ⟨stmt, by rw [htodo', Function.update_self, htodo]⟩
  cases stmt with
  | started =>
    obtain ⟨htodo', hl⟩ := Process.of_lifecycle hexec
    exact ⟨Process.turned_started hrun htodo hexec, htail htodo htodo', .inr ⟨_, hl⟩⟩
  | ended =>
    obtain ⟨htodo', hl⟩ := Process.of_lifecycle hexec
    exact ⟨Process.turned_ended hrun htodo hexec, htail htodo htodo', .inr ⟨_, hl⟩⟩
  | claim v =>
    have hrow := h.row (h.started htodo nofun)
    obtain ⟨htodo', hl⟩ :=
      Process.of_library (s := { s with todo := Function.update s.todo t rest }) hrow hexec
    exact ⟨Process.turned_claim hrow hrun htodo hexec, htail htodo htodo', .inl hl⟩
  | use u =>
    have hrow := h.row (h.started htodo nofun)
    obtain ⟨htodo', hl⟩ :=
      Process.of_library (s := { s with todo := Function.update s.todo t rest }) hrow hexec
    refine ⟨?_, htail htodo htodo', .inl hl⟩
    cases u with
    | request v => exact Process.turned_request hrow hrun htodo hexec
    | release v => exact Process.turned_release hrow hrun htodo hexec

/-- A blocked thread has started. -/
theorem Inv.started_of_blocked (h : c.Inv s) {v : Vec c.M} {signalled : Bool}
    (hb : s.threads t = .blocked v signalled) : s.phase t ≠ .unstarted := by
  intro hphase
  have hstage := h.stage t
  generalize hv : s.view t = w at hstage
  have hb' : w.thread = .blocked v signalled := hv ▸ hb
  have hphase' : w.phase = .unstarted := hv ▸ hphase
  cases hstage <;> simp_all

/-- A further round of the waiting loops changes nothing, uses up a signal or ends them. -/
theorem Inv.wake (h : c.Inv s) (hact : s.act c.handle (.wake t) = some s') :
    s'.todo = s.todo ∧ s'.lifetime = s.lifetime ∧
      (s' = s ∨ Process.Turned t s s' ∧ ∀ i ≠ t, s'.view i = s.view i) := by
  obtain ⟨-, sys, hsys, rfl⟩ := Process.library_eq_some hact
  cases hb : s.threads t with
  | running => simp [Sys.call, hb] at hsys
  | blocked v signalled =>
    have hrow := h.row (h.started_of_blocked hb)
    obtain ⟨htodo, hl⟩ := Process.of_library hrow hact
    refine ⟨htodo, hl, ?_⟩
    simp only [Sys.call, hb, hrow, Option.map_some, Option.some.injEq] at hsys
    subst hsys
    rcases s.rm.tryGrant_cases t v with heq | heq <;> simp only [heq, Sys.settle]
    · cases signalled with
      | false =>
        have hsame : Function.update s.threads t (.blocked v false) = s.threads :=
          Function.update_eq_self_iff.mpr hb.symm
        rw [hsame]
        exact .inl rfl
      | true =>
        refine .inr ⟨⟨rfl, ?_, .inl fun i hi => ?_⟩, fun i hi => ?_⟩
        · rw [Process.view_eq rfl hb rfl]
          simp only [Process.view, Function.update_self]
          exact .rechecks
        · simp [Process.view, hi]
        · simp [Process.view, hi]
    · have hothers (i : Fin c.N) (hi : i ≠ t) : (s.rm.allocate t v).books i = s.rm.books i := by
        simp [books, allocate, hi]
      refine .inr ⟨⟨rfl, ?_, .inl fun i hi => ?_⟩, fun i hi => ?_⟩
      · rw [Process.view_eq rfl hb rfl]
        simp only [Process.view, Function.update_self, books_allocate]
        exact .granted
      · simp [Process.view, hi, hothers i hi]
      · simp [Process.view, hi, hothers i hi]

theorem Inv.of_turned (h : c.Inv s) (hturn : Process.Turned t s s')
    (hl : s'.lifetime = s.lifetime ∨ ∃ e, s.lifetime.act c.handle e = some s'.lifetime) :
    c.Inv s' where
  fits := h.fits
  exist := hturn.exist.trans h.exist
  seated := by
    rcases hl with hl | ⟨e, hl⟩
    · exact hl ▸ h.seated
    · exact h.seated.step hl
  counted := by
    rcases hl with hl | ⟨e, hl⟩
    · exact hl ▸ h.counted
    · exact h.counted.step hl
  stage i := by
    rcases eq_or_ne i t with rfl | hi
    · exact (h.stage i).moves (h.exist ▸ hturn.own)
    · rcases hturn.others with hsame | hsignal
      · exact hsame i hi ▸ h.stage i
      · exact hsignal i hi ▸ (h.stage i).signal

theorem Inv.step (h : c.Inv s) {turn : Turn c.N} (hact : s.act c.handle turn = some s') :
    c.Inv s' := by
  cases turn with
  | call t =>
    obtain ⟨hturn, -, hl⟩ := h.call hact
    exact h.of_turned hturn hl
  | wake t =>
    obtain ⟨-, hl, rfl | ⟨hturn, -⟩⟩ := h.wake hact
    · exact h
    · exact h.of_turned hturn (.inl hl)

theorem inv_init (hs : c.init s) : c.Inv s := by
  obtain ⟨rm, hinit, rfl⟩ := hs
  obtain ⟨⟨hcount, -⟩, rfl⟩ := rmInit_eq_some hinit
  exact ⟨Int.toNat_le.mpr hcount, rfl, fun _ _ _ => rfl, (Lifetime.kept_start rfl).counted,
    fun _ => .unstarted⟩

theorem inv (hs : c.system.Reachable s) : c.Inv s :=
  hs.invariant (fun _ => inv_init) fun _ _ _ h ⟨_, hact⟩ => h.step hact

/-- The rows of a thread are what its own function makes of them, at every point of every
interleaving and whether deadlocks are avoided or not: zero until it has claimed, and from then on
the account of the uses that have returned. -/
theorem own_account (hs : c.system.Reachable s) (t : Fin c.N) :
    (s.threads t = .running ∧ s.rm.books t = ⟨0, 0⟩ ∧
      (s.todo t = (c.script t).body ∨
        s.todo t = .claim (c.script t).claim :: Script.tail (c.script t).uses)) ∨
    ∃ done rest, (c.script t).uses = done ++ rest ∧
      s.rm.books t = (c.script t).books c.exist done ∧
      ((s.threads t = .running ∧ (s.todo t = Script.tail rest ∨ s.todo t = [] ∧ rest = [])) ∨
        ∃ v signalled rest', s.threads t = .blocked v signalled ∧ rest = .request v :: rest' ∧
          s.todo t = Script.tail rest' ∧ (s.rm.books t).Accepts c.exist v) := by
  have hstage := (inv hs).stage t
  generalize hv : s.view t = v at hstage
  have hthread : s.threads t = v.thread := hv ▸ rfl
  have htodo : s.todo t = v.todo := hv ▸ rfl
  have hbooks : s.rm.books t = v.books := hv ▸ rfl
  rw [hthread, htodo, hbooks]
  cases hstage with
  | unstarted => exact .inl ⟨rfl, rfl, .inl rfl⟩
  | started => exact .inl ⟨rfl, rfl, .inr rfl⟩
  | running split => exact .inr ⟨_, _, split, rfl, .inl ⟨rfl, .inl rfl⟩⟩
  | waiting split ok => exact .inr ⟨_, _, split, rfl, .inr ⟨_, _, _, rfl, rfl, rfl, ok⟩⟩
  | ended => exact .inr ⟨_, [], (List.append_nil _).symm, rfl, .inl ⟨rfl, .inr ⟨rfl, rfl⟩⟩⟩

theorem own_account_appMiddle :
    (appMiddle.threads (1 : Fin 2) = .running ∧ appMiddle.rm.books (1 : Fin 2) = ⟨0, 0⟩ ∧
      (appMiddle.todo (1 : Fin 2) = threadfunc2.body ∨
        appMiddle.todo (1 : Fin 2) = .claim threadfunc2.claim :: Script.tail threadfunc2.uses)) ∨
    ∃ done rest, threadfunc2.uses = done ++ rest ∧
      appMiddle.rm.books (1 : Fin 2) = threadfunc2.books (app 1).exist done ∧
      ((appMiddle.threads (1 : Fin 2) = .running ∧
          (appMiddle.todo (1 : Fin 2) = Script.tail rest ∨
            appMiddle.todo (1 : Fin 2) = [] ∧ rest = [])) ∨
        ∃ v signalled rest', appMiddle.threads (1 : Fin 2) = .blocked v signalled ∧
          rest = .request v :: rest' ∧ appMiddle.todo (1 : Fin 2) = Script.tail rest' ∧
          (appMiddle.rm.books (1 : Fin 2)).Accepts (app 1).exist v) :=
  own_account reachable_appMiddle (1 : Fin 2)

end Application

end Cs342.ResourceManager
