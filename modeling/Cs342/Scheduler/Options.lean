import Cs342.Library.Overrides
import Cs342.Library.Strtoul
import Cs342.Scheduler.Producer

/-!
# The options of the simulator (mps.c)

`main` goes through its arguments from left to right. An option takes the next arguments as its
values, whatever they look like, and an argument that is none of the options is passed over. So a
list of arguments is a list of options with their values, of which only the last one of each kind
counts; where the order of two options might matter, it does not: `-o` prevails over `-m`, and
`-r` over `-i`.

There is no result where the values run out, as the null pointer behind the arguments is used then,
and where the name of a file does not fit in its array. What is not set is `none`.
-/

namespace Cs342.Scheduler

open Library

structure Options where
  N : ℤ
  Q : ℤ
  T : ℤ
  T1 : ℤ
  T2 : ℤ
  L : ℤ
  L1 : ℤ
  L2 : ℤ
  PC : ℤ
  outmode : ℤ
  sap : CString
  qs : CString
  alg : CString
  infile : CString
  outfile : CString
  rSpecified : Bool
  iSpecified : Bool
  oSpecified : Bool
  deriving DecidableEq

namespace Options

def defaults : Options where
  N := 2
  Q := 20
  T := 200
  T1 := 10
  T2 := 1000
  L := 100
  L1 := 10
  L2 := 500
  PC := 10
  outmode := 1
  sap := ascii "M"
  qs := ascii "RM"
  alg := ascii "RR"
  infile := ascii ""
  outfile := ascii "out.txt"
  rSpecified := false
  iSpecified := false
  oSpecified := false

/-- The loop over the arguments. -/
def parse : Options → List CString → Option Options
  | opts, [] => some opts
  | opts, cur :: rest =>
    if strcmp cur (ascii "-n") = 0 then
      match rest with
      | N :: rest => parse { opts with N := atoi N } rest
      | _ => none
    else if strcmp cur (ascii "-a") = 0 then
      match rest with
      | sap :: qs :: rest => parse { opts with sap := sap, qs := qs } rest
      | _ => none
    else if strcmp cur (ascii "-s") = 0 then
      match rest with
      | alg :: Q :: rest => parse { opts with alg := alg, Q := atoi Q } rest
      | _ => none
    else if strcmp cur (ascii "-i") = 0 then
      match rest with
      | infile :: rest => parse { opts with infile := infile, iSpecified := true } rest
      | _ => none
    else if strcmp cur (ascii "-m") = 0 then
      match rest with
      | outmode :: rest => parse { opts with outmode := atoi outmode } rest
      | _ => none
    else if strcmp cur (ascii "-o") = 0 then
      match rest with
      | outfile :: rest => parse { opts with outfile := outfile, oSpecified := true } rest
      | _ => none
    else if strcmp cur (ascii "-r") = 0 then
      match rest with
      | T :: T1 :: T2 :: L :: L1 :: L2 :: PC :: rest =>
        parse { opts with
          T := atoi T, T1 := atoi T1, T2 := atoi T2, L := atoi L, L1 := atoi L1, L2 := atoi L2
          PC := atoi PC, rSpecified := true } rest
      | _ => none
    else parse opts rest

end Options

/-- What `schedule` is called with, as far as `main` sets it. -/
structure Settings where
  N : ℤ
  Q : ℤ
  T : ℤ
  T1 : ℤ
  T2 : ℤ
  L : ℤ
  L1 : ℤ
  L2 : ℤ
  PC : ℤ
  outmode : ℤ
  sap : Option SchedulingApproach
  qs : QueueSelection
  alg : Option SchedulingAlgorithm
  infile : CString
  outfile : CString
  source : ScheduleSource
  deriving DecidableEq, Repr

namespace Options

/-- The size of the arrays for the names of files. -/
def nameSize : ℕ := 256

/-- The number of the output mode `OFILE`. -/
def OFILE : ℤ := 3

def settings (opts : Options) : Option Settings :=
  if opts.infile.length < nameSize ∧ opts.outfile.length < nameSize then
    some {
      N := opts.N, Q := opts.Q, T := opts.T, T1 := opts.T1, T2 := opts.T2, L := opts.L
      L1 := opts.L1, L2 := opts.L2, PC := opts.PC
      outmode := if opts.oSpecified then OFILE else opts.outmode - 1
      sap :=
        if strcmp opts.sap (ascii "M") = 0 then some .multi
        else if strcmp opts.sap (ascii "S") = 0 then some .single
        else none
      qs :=
        if strcmp opts.qs (ascii "RM") = 0 then .rm
        else if strcmp opts.qs (ascii "LM") = 0 then .lm
        else .na
      alg :=
        if strcmp opts.alg (ascii "FCFS") = 0 then some .fcfs
        else if strcmp opts.alg (ascii "SJF") = 0 then some .sjf
        else if strcmp opts.alg (ascii "RR") = 0 then some .rr
        else none
      infile := opts.infile
      outfile := opts.outfile
      source := if opts.iSpecified && !opts.rSpecified then .file else .random }
  else none

/-- `main` up to the call of `schedule`. -/
def main (args : List CString) : Option Settings := (parse defaults (args.drop 1)).bind settings

end Options

/-! ## Options and their values -/

/-- An option with its values, or an argument that is passed over. -/
inductive Flag where
  | n (N : CString)
  | a (sap qs : CString)
  | s (alg Q : CString)
  | i (infile : CString)
  | m (outmode : CString)
  | o (outfile : CString)
  | r (T T1 T2 L L1 L2 PC : CString)
  | unknown (arg : CString)
      (not_flag : arg ∉ ["-n", "-a", "-s", "-i", "-m", "-o", "-r"].map ascii)

inductive FlagKind where
  | n | a | s | i | m | o | r | unknown
  deriving DecidableEq, Repr

namespace Flag

def kind : Flag → FlagKind
  | n _ => .n
  | a _ _ => .a
  | s _ _ => .s
  | i _ => .i
  | m _ => .m
  | o _ => .o
  | r _ _ _ _ _ _ _ => .r
  | unknown _ _ => .unknown

/-- The arguments. -/
def words : Flag → List CString
  | n N => [ascii "-n", N]
  | a sap qs => [ascii "-a", sap, qs]
  | s alg Q => [ascii "-s", alg, Q]
  | i infile => [ascii "-i", infile]
  | m outmode => [ascii "-m", outmode]
  | o outfile => [ascii "-o", outfile]
  | r T T1 T2 L L1 L2 PC => [ascii "-r", T, T1, T2, L, L1, L2, PC]
  | unknown arg _ => [arg]

/-- What an option does to the options so far. -/
def apply (opts : Options) : Flag → Options
  | n N => { opts with N := atoi N }
  | a sap qs => { opts with sap := sap, qs := qs }
  | s alg Q => { opts with alg := alg, Q := atoi Q }
  | i infile => { opts with infile := infile, iSpecified := true }
  | m outmode => { opts with outmode := atoi outmode }
  | o outfile => { opts with outfile := outfile, oSpecified := true }
  | r T T1 T2 L L1 L2 PC =>
    { opts with
      T := atoi T, T1 := atoi T1, T2 := atoi T2, L := atoi L, L1 := atoi L1, L2 := atoi L2
      PC := atoi PC, rSpecified := true }
  | unknown _ _ => opts

/-- Options of different kinds set different variables, and those of one kind the same. -/
def overrides : Overrides Options Flag FlagKind where
  apply := apply
  kind := kind
  comm opts f g h := by cases f <;> cases g <;> first | rfl | exact absurd rfl h
  replace opts f g h := by cases f <;> cases g <;> first | rfl | cases h

theorem parse_words (opts : Options) (f : Flag) (args : List CString) :
    opts.parse (f.words ++ args) = (f.apply opts).parse args := by
  cases f with
  | n N => rw [words, List.cons_append, List.cons_append, Options.parse, if_pos (by decide)]; rfl
  | a sap qs =>
    simp only [words, List.cons_append, List.nil_append]
    rw [Options.parse, if_neg (by decide), if_pos (by decide)]
    rfl
  | s alg Q =>
    simp only [words, List.cons_append, List.nil_append]
    rw [Options.parse, if_neg (by decide), if_neg (by decide), if_pos (by decide)]
    rfl
  | i infile =>
    simp only [words, List.cons_append, List.nil_append]
    rw [Options.parse, if_neg (by decide), if_neg (by decide), if_neg (by decide),
      if_pos (by decide)]
    rfl
  | m outmode =>
    simp only [words, List.cons_append, List.nil_append]
    rw [Options.parse, if_neg (by decide), if_neg (by decide), if_neg (by decide),
      if_neg (by decide), if_pos (by decide)]
    rfl
  | o outfile =>
    simp only [words, List.cons_append, List.nil_append]
    rw [Options.parse, if_neg (by decide), if_neg (by decide), if_neg (by decide),
      if_neg (by decide), if_neg (by decide), if_pos (by decide)]
    rfl
  | r T T1 T2 L L1 L2 PC =>
    simp only [words, List.cons_append, List.nil_append]
    rw [Options.parse, if_neg (by decide), if_neg (by decide), if_neg (by decide),
      if_neg (by decide), if_neg (by decide), if_neg (by decide), if_pos (by decide)]
    rfl
  | unknown arg hnot =>
    simp only [List.map_cons, List.map_nil, List.mem_cons, List.not_mem_nil, or_false,
      not_or] at hnot
    obtain ⟨hn, ha, hs, hi, hm, ho, hr⟩ := hnot
    rw [words, List.singleton_append, Options.parse.eq_def]
    simp only [strcmp_eq_zero_iff, hn, ha, hs, hi, hm, ho, hr, if_false, apply]

/-- Options with their values are accepted. -/
theorem parse_flatMap (opts : Options) (flags : List Flag) :
    opts.parse (flags.flatMap words) = some (overrides.run opts flags) := by
  induction flags generalizing opts with
  | nil => rfl
  | cons f flags ih =>
    rw [List.flatMap_cons, parse_words, ih]
    rfl

theorem cons_words {args rest : List CString} (f : Flag) (hargs : args = f.words ++ rest)
    (h : ∃ flags : List Flag, rest = flags.flatMap words) :
    ∃ flags : List Flag, args = flags.flatMap words := by
  obtain ⟨flags, rfl⟩ := h
  exact ⟨f :: flags, hargs⟩

/-- Nothing else is. -/
theorem exists_flags {opts opts' : Options} {args : List CString}
    (h : opts.parse args = some opts') : ∃ flags : List Flag, args = flags.flatMap words := by
  fun_induction Options.parse opts args with
  | case1 => exact ⟨[], rfl⟩
  | case2 _ _ hcur N _ ih =>
    exact cons_words (.n N) (by rw [strcmp_eq_zero_iff.mp hcur]; rfl) (ih h)
  | case4 _ _ _ hcur sap qs _ ih =>
    exact cons_words (.a sap qs) (by rw [strcmp_eq_zero_iff.mp hcur]; rfl) (ih h)
  | case6 _ _ _ _ hcur alg Q _ ih =>
    exact cons_words (.s alg Q) (by rw [strcmp_eq_zero_iff.mp hcur]; rfl) (ih h)
  | case8 _ _ _ _ _ hcur infile _ ih =>
    exact cons_words (.i infile) (by rw [strcmp_eq_zero_iff.mp hcur]; rfl) (ih h)
  | case10 _ _ _ _ _ _ hcur outmode _ ih =>
    exact cons_words (.m outmode) (by rw [strcmp_eq_zero_iff.mp hcur]; rfl) (ih h)
  | case12 _ _ _ _ _ _ _ hcur outfile _ ih =>
    exact cons_words (.o outfile) (by rw [strcmp_eq_zero_iff.mp hcur]; rfl) (ih h)
  | case14 _ _ _ _ _ _ _ _ hcur T T1 T2 L L1 L2 PC _ ih =>
    exact cons_words (.r T T1 T2 L L1 L2 PC) (by rw [strcmp_eq_zero_iff.mp hcur]; rfl) (ih h)
  | case16 _ cur _ hn ha hs hi hm ho hr ih =>
    have hnot : cur ∉ ["-n", "-a", "-s", "-i", "-m", "-o", "-r"].map ascii := by
      simp only [strcmp_eq_zero_iff] at hn ha hs hi hm ho hr
      simp [hn, ha, hs, hi, hm, ho, hr]
    exact cons_words (.unknown cur hnot) rfl (ih h)
  | _ => cases h

theorem run_others_unknown (opts : Options) (flags : List Flag) :
    overrides.run opts (overrides.others .unknown flags) = overrides.run opts flags := by
  induction flags generalizing opts with
  | nil => rfl
  | cons f flags ih =>
    cases f with
    | unknown arg hnot => exact ih opts
    | _ => exact ih _

end Flag

namespace Options

end Options

end Cs342.Scheduler
