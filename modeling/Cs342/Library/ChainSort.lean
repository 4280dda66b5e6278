import Cs342.Library.Chain
import Cs342.Library.ExchangeSort

/-!
# Exchanging the values of a chain

Two nested loops over the nodes of a chain, in which an inner node and the outer one
exchange their values, or parts of them. The links stay as they are, so what becomes
of the values can be said of lists. The outer loop looks one node ahead: it follows a
null pointer if it begins at one.
-/

namespace Cs342.Library

variable {α : Type*} (f : α → α → α × α)

/-- What `x` and the values of `l` become when `x` meets each of them in turn. -/
def pass (x : α) : List α → α × List α
  | [] => (x, [])
  | y :: l => ((pass (f x y).1 l).1, (f x y).2 :: (pass (f x y).1 l).2)

/-- The first `n` values meet all later ones in turn. -/
def passes : ℕ → List α → List α
  | n + 1, x :: l => (pass f x l).1 :: passes n (pass f x l).2
  | _, l => l

namespace Heap

/-- `for (; j; j = j->next)`, with at most so many rounds. -/
def passLoop (i : ℕ) : ℕ → Option ℕ → Heap α → Option (Heap α)
  | _, none, h => some h
  | 0, some _, _ => none
  | n + 1, some j, h => do
    let ci ← h i
    let cj ← h j
    let (x, y) := f ci.data cj.data
    passLoop i n cj.next ((h.write i { ci with data := x }).write j { cj with data := y })

/-- `for (; i->next; i = i->next)` around the inner loop from `i->next` on. -/
def sortLoop : ℕ → Option ℕ → Heap α → Option (Heap α)
  | 0, _, _ => none
  | _ + 1, none, _ => none
  | n + 1, some i, h => do
    let c ← h i
    if c.next = none then some h
    else
      let h ← passLoop f i n c.next h
      let c ← h i
      sortLoop n c.next h

end Heap

variable {f} {x : α} {l : List α}

/-! ## The links stay -/

def Cell.links (c : Cell α) : Option ℕ × Option ℕ := (c.next, c.prev)

namespace Heap

variable {h g : Heap α} {a i n : ℕ} {j : Option ℕ} {c : Cell α}

/-- Another value in a cell. -/
theorem links_write (hc : (h i).map Cell.links = some c.links) (a : ℕ) :
    (h.write i c a).map Cell.links = (h a).map Cell.links := by
  by_cases ha : a = i
  · rw [ha, write_self, hc, Option.map_some]
  · rw [write_of_ne h c ha]

theorem links_passLoop (hloop : passLoop f i n j h = some g) (a : ℕ) :
    (g a).map Cell.links = (h a).map Cell.links := by
  induction n generalizing j h with
  | zero => cases j <;> simp_all [passLoop]
  | succ n ih =>
    cases j with
    | none =>
      obtain rfl := Option.some.inj hloop
      rfl
    | some j =>
      simp only [passLoop, Option.bind_eq_bind, Option.bind_eq_some_iff] at hloop
      obtain ⟨ci, hi, cj, hj, hrest⟩ := hloop
      have hfirst (b : ℕ) :
          (h.write i { ci with data := (f ci.data cj.data).1 } b).map Cell.links =
            (h b).map Cell.links := links_write (by rw [hi]; rfl) b
      have hsecond : (h.write i { ci with data := (f ci.data cj.data).1 } j).map Cell.links =
          some (Cell.links { cj with data := (f ci.data cj.data).2 }) := by
        rw [hfirst, hj]
        rfl
      rw [ih hrest, links_write hsecond, hfirst]

/-- Sorting changes no link, in the list or elsewhere. -/
theorem links_sortLoop (hloop : sortLoop f n j h = some g) (a : ℕ) :
    (g a).map Cell.links = (h a).map Cell.links := by
  induction n generalizing j h with
  | zero => simp [sortLoop] at hloop
  | succ n ih =>
    cases j with
    | none => simp [sortLoop] at hloop
    | some i =>
      simp only [sortLoop, Option.bind_eq_bind, Option.bind_eq_some_iff] at hloop
      obtain ⟨c, -, hrest⟩ := hloop
      split_ifs at hrest with hlast
      · obtain rfl := Option.some.inj hrest
        rfl
      · simp only [Option.bind_eq_some_iff] at hrest
        obtain ⟨h', hpass, c', -, hrest⟩ := hrest
        rw [ih hrest, links_passLoop hpass]

end Heap

/-! ## The values -/

theorem length_pass : (pass f x l).2.length = l.length := by
  induction l generalizing x with
  | nil => rfl
  | cons y l ih => simp [pass, ih]

theorem length_passes {n : ℕ} : (passes f n l).length = l.length := by
  induction n generalizing l with
  | zero => rfl
  | succ n ih =>
    cases l with
    | nil => rfl
    | cons x l => simp [passes, ih, length_pass]

/-- To exchange two values that are out of order is to sort. -/
theorem pass_exchange {lt : α → α → Prop} [DecidableRel lt] :
    pass (fun x y => if lt y x then (y, x) else (x, y)) x l = exchange lt x l := by
  induction l generalizing x with
  | nil => rfl
  | cons y l ih =>
    rw [pass, exchange, ← ih, ← ih]
    split_ifs <;> rfl

theorem passes_exchange {lt : α → α → Prop} [DecidableRel lt] {n : ℕ} :
    passes (fun x y => if lt y x then (y, x) else (x, y)) n l = exchangeSort lt n l := by
  induction n generalizing l with
  | zero => rfl
  | succ n ih =>
    cases l with
    | nil => rfl
    | cons x l => rw [passes, exchangeSort, pass_exchange, ih]

theorem addrs_zip {as : List ℕ} (h : l.length = as.length) : addrs (as.zip l) = as :=
  List.map_fst_zip (Nat.le_of_eq h.symm)

theorem values_zip {as : List ℕ} (h : l.length = as.length) : values (as.zip l) = l :=
  List.map_snd_zip (Nat.le_of_eq h)

/-! Where a segment begins and ends depends on its addresses only. -/

theorem firstAddr_congr {l m : List (ℕ × α)} (h : addrs l = addrs m) (n : Option ℕ) :
    firstAddr n l = firstAddr n m := by
  cases l <;> cases m <;> simp_all

theorem lastAddr_congr {l m : List (ℕ × α)} (h : addrs l = addrs m) (p : Option ℕ) :
    lastAddr p l = lastAddr p m := by
  induction l generalizing m p with
  | nil =>
    obtain rfl := List.map_eq_nil_iff.mp h.symm
    rfl
  | cons c l ih =>
    obtain ⟨d, m, rfl, hd, hm⟩ := List.map_eq_cons_iff.mp h.symm
    rw [lastAddr_cons, lastAddr_cons, hd, ih hm.symm]

namespace Chain

variable {h : Heap α} {p n : Option ℕ} {pre m rest : List (ℕ × α)} {a i : ℕ} {y : α} {k : ℕ}

theorem not_mem_of_nodup (hnd : (addrs (pre ++ (a, x) :: rest)).Nodup) :
    a ∉ addrs pre ∧ a ∉ addrs rest := by
  have hperm : (addrs (pre ++ (a, x) :: rest)).Perm (a :: addrs (pre ++ rest)) :=
    List.perm_middle.map Prod.fst
  have ha := (List.nodup_cons.mp (hperm.nodup_iff.mp hnd)).1
  rwa [addrs, List.map_append, List.mem_append, not_or] at ha

/-- Another value at one address. -/
theorem write_data (hc : Chain h p (pre ++ (a, x) :: rest) n)
    (hnd : (addrs (pre ++ (a, x) :: rest)).Nodup) (y : α) :
    Chain (h.write a ⟨y, firstAddr n rest, lastAddr p pre⟩) p (pre ++ (a, y) :: rest) n := by
  obtain ⟨hpre, -, hrest⟩ := append_iff.mp hc
  obtain ⟨hapre, harest⟩ := not_mem_of_nodup hnd
  have hoff : ∀ b ≠ a, h.write a ⟨y, firstAddr n rest, lastAddr p pre⟩ b = h b :=
    fun b hb => h.write_of_ne _ hb
  exact join (hpre.frame hoff hapre) ⟨by simp, hrest.frame hoff harest⟩

/-- The inner loop, which has passed the nodes `m` already. -/
theorem passLoop (hc : Chain h p (pre ++ (i, x) :: (m ++ rest)) none)
    (hnd : (addrs (pre ++ (i, x) :: (m ++ rest))).Nodup) (hk : rest.length ≤ k) :
    ∃ g, Heap.passLoop f i k (firstAddr none rest) h = some g ∧
      Chain g p (pre ++ (i, (pass f x (values rest)).1) ::
        (m ++ (addrs rest).zip (pass f x (values rest)).2)) none := by
  induction rest generalizing h x m k with
  | nil => exact ⟨h, by cases k <;> rfl, by simpa [pass] using hc⟩
  | cons c rest ih =>
    obtain ⟨j, y⟩ := c
    cases k with
    | zero => simp at hk
    | succ k =>
      have hi := hc.cell_eq
      have hc₁ := hc.write_data hnd (f x y).1
      have hregroup (z : α) (ns : List (ℕ × α)) :
          pre ++ (i, z) :: (m ++ ns) = (pre ++ (i, z) :: m) ++ ns := by simp
      rw [hregroup] at hc hc₁
      have hnd₁ : (addrs ((pre ++ (i, (f x y).1) :: m) ++ (j, y) :: rest)).Nodup := by
        simpa using hnd
      have hj := hc.cell_eq
      have hc₂ := hc₁.write_data hnd₁ (f x y).2
      rw [← hregroup, List.append_cons m (j, (f x y).2)] at hc₂
      obtain ⟨g, hg, hcg⟩ := ih hc₂ (by simpa using hnd) (Nat.le_of_succ_le_succ hk)
      refine ⟨g, ?_, by simpa [pass] using hcg⟩
      simpa [Heap.passLoop, hi, hj] using hg

/-- Both loops. The outer one begins at the first node behind `pre`. -/
theorem sortLoop (hc : Chain h p (pre ++ (i, x) :: rest) none)
    (hnd : (addrs (pre ++ (i, x) :: rest)).Nodup) (hk : rest.length < k) :
    ∃ g, Heap.sortLoop f k (some i) h = some g ∧
      Chain g p (pre ++ (i :: addrs rest).zip (passes f (rest.length + 1) (x :: values rest)))
        none := by
  induction k generalizing h pre i x rest with
  | zero => simp at hk
  | succ k ih =>
    have hi := hc.cell_eq
    cases rest with
    | nil => exact ⟨h, by simp [Heap.sortLoop, hi], by simpa [passes, pass] using hc⟩
    | cons c rest =>
      obtain ⟨j, y⟩ := c
      obtain ⟨g, hg, hcg⟩ := passLoop (f := f) (m := []) hc hnd (Nat.le_of_lt_succ hk)
      have hlength : (pass f (f x y).1 (values rest)).2.length = (addrs rest).length := by
        simp [length_pass]
      have haddrs := addrs_zip hlength
      have hvalues := values_zip hlength
      have hcons : (addrs ((j, y) :: rest)).zip (pass f x (values ((j, y) :: rest))).2 =
          (j, (f x y).2) :: (addrs rest).zip (pass f (f x y).1 (values rest)).2 := rfl
      rw [List.nil_append, hcons] at hcg
      simp only [firstAddr_cons] at hg
      -- the values behind the outer node are now these
      generalize (addrs rest).zip (pass f (f x y).1 (values rest)).2 = rest' at *
      have hrest : rest'.length = rest.length := by simpa using congrArg List.length haddrs
      have hi' := hcg.cell_eq
      rw [List.append_cons] at hcg
      obtain ⟨g', hg', hcg'⟩ := ih hcg (by simpa [haddrs] using hnd) (by simp at hk; omega)
      refine ⟨g', ?_, ?_⟩
      · simpa [Heap.sortLoop, hi, hg, hi'] using hg'
      · simpa [passes, pass, haddrs, hvalues, hrest] using hcg'

end Chain

end Cs342.Library
