import Cs342.MemUtils.FrameInfo
import Cs342.MemUtils.MapRange

/-!
# The options of pvm

`main` takes one option and its numbers: a process as a decimal number, and addresses and frames as
`strtoul` reads them, in hexadecimal if there is a mark in front. So each call can be asked for. A
frame that one option has printed can be handed to another one if it has been printed with its
mark; `map` prints frames without it.
-/

namespace Cs342.MemUtils

open Library

inductive Opt where
  | freefc | frameinfo | memused | mapva | pte | maprange | mapall | mapallin | alltablesize
  deriving DecidableEq, Repr

namespace Opt

/-- The options in the order in which they are compared. -/
def all : List Opt :=
  [freefc, frameinfo, memused, mapva, pte, maprange, mapall, mapallin, alltablesize]

def text : Opt → CString
  | freefc => ascii "-freefc"
  | frameinfo => ascii "-frameinfo"
  | memused => ascii "-memused"
  | mapva => ascii "-mapva"
  | pte => ascii "-pte"
  | maprange => ascii "-maprange"
  | mapall => ascii "-mapall"
  | mapallin => ascii "-mapallin"
  | alltablesize => ascii "-alltablesize"

/-- The number of arguments, with the program and the option. -/
def argc : Opt → ℕ
  | freefc => 4
  | frameinfo => 3
  | memused => 3
  | mapva => 4
  | pte => 4
  | maprange => 5
  | mapall => 3
  | mapallin => 3
  | alltablesize => 3

/-- The names of the arguments in the message about a wrong number of them. -/
def synopsis : Opt → CString
  | freefc => ascii "<pfnBegin> <pfnEnd>"
  | frameinfo => ascii "<pfn>"
  | memused => ascii "<pid>"
  | mapva => ascii "<pid> <VA>"
  | pte => ascii "<pid> <VA>"
  | maprange => ascii "<pid> <VA1> <VA2>"
  | mapall => ascii "<pid>"
  | mapallin => ascii "<pid>"
  | alltablesize => ascii "<pid>"

end Opt

/-- A call of one of the functions. -/
inductive Call where
  | freeFc (pfnBegin pfnEnd : Word)
  | frameInfo (pfn : Word)
  | memUsed (pid : ℤ)
  | mapVa (pid : ℤ) (VA : Word)
  | pte (pid : ℤ) (VA : Word)
  | mapRange (pid : ℤ) (VA1 VA2 : Word)
  | mapAll (pid : ℤ)
  | mapAllIn (pid : ℤ)
  | allTableSize (pid : ℤ)
  deriving DecidableEq, Repr

/-- The call that an option asks for with its arguments. -/
def Opt.call (argv : ℕ → CString) : Opt → Call
  | freefc => .freeFc (strtoul (argv 2)) (strtoul (argv 3))
  | frameinfo => .frameInfo (strtoul (argv 2))
  | memused => .memUsed (atoi (argv 2))
  | mapva => .mapVa (atoi (argv 2)) (strtoul (argv 3))
  | pte => .pte (atoi (argv 2)) (strtoul (argv 3))
  | maprange => .mapRange (atoi (argv 2)) (strtoul (argv 3)) (strtoul (argv 4))
  | mapall => .mapAll (atoi (argv 2))
  | mapallin => .mapAllIn (atoi (argv 2))
  | alltablesize => .allTableSize (atoi (argv 2))

inductive Outcome where
  | help
  | usage (message : CString)
  | call (c : Call)
  | nothing
  deriving DecidableEq, Repr

/-- What `main` returns. -/
def Outcome.status : Outcome → ℤ
  | .usage _ => -1
  | .help | .call _ | .nothing => 0

/-- Without an option there is help; an option that is not known does nothing. -/
def main (args : List CString) : Outcome :=
  let argv i := args.getD i []
  if args.length < 2 ∨ strcmp (argv 1) (ascii "-h") = 0 ∨ strcmp (argv 1) (ascii "--help") = 0 then
    .help
  else
    match Opt.all.find? fun o => strcmp (argv 1) o.text = 0 with
    | none => .nothing
    | some o =>
      if args.length ≠ o.argc then
        .usage (ascii "Usage: sudo ./pvm " ++ o.text ++ ascii " " ++ o.synopsis ++ ascii "\n")
      else .call (o.call argv)

/-! ## Asking for a call -/

/-- The option and the numbers of a call. -/
def Call.line : Call → List CString
  | .freeFc pfnBegin pfnEnd => [Opt.freefc.text, hexText 1 pfnBegin, hexText 1 pfnEnd]
  | .frameInfo pfn => [Opt.frameinfo.text, hexText 1 pfn]
  | .memUsed pid => [Opt.memused.text, intText pid]
  | .mapVa pid VA => [Opt.mapva.text, intText pid, hexText 1 VA]
  | .pte pid VA => [Opt.pte.text, intText pid, hexText 1 VA]
  | .mapRange pid VA1 VA2 => [Opt.maprange.text, intText pid, hexText 1 VA1, hexText 1 VA2]
  | .mapAll pid => [Opt.mapall.text, intText pid]
  | .mapAllIn pid => [Opt.mapallin.text, intText pid]
  | .allTableSize pid => [Opt.alltablesize.text, intText pid]

/-- The process that a call is about, if it is about one. -/
def Call.pid : Call → Option ℤ
  | .freeFc _ _ | .frameInfo _ => none
  | .memUsed pid | .mapVa pid _ | .pte pid _ | .mapRange pid _ _ | .mapAll pid | .mapAllIn pid
  | .allTableSize pid => some pid

/-- The texts of the options differ, from each other and from those that ask for help. -/
theorem Opt.find_text (o : Opt) : Opt.all.find? (fun o' => strcmp o.text o'.text = 0) = some o ∧
    strcmp o.text (ascii "-h") ≠ 0 ∧ strcmp o.text (ascii "--help") ≠ 0 := by
  cases o <;> decide +kernel

/-- An option with as many arguments as it takes. -/
theorem main_option (name : CString) (o : Opt) (numbers : List CString)
    (h : numbers.length + 2 = o.argc) :
    main (name :: o.text :: numbers) =
      .call (o.call fun i => (name :: o.text :: numbers).getD i []) := by
  obtain ⟨hfind, hhelp, hlonghelp⟩ := o.find_text
  have hlength : (name :: o.text :: numbers).length = o.argc := h
  have hmany : ¬ o.argc < 2 := by omega
  simp only [main, List.getD_cons_succ, List.getD_cons_zero, hlength, hmany, hhelp, hlonghelp,
    or_self, if_false, hfind, ne_eq, not_true_eq_false]

theorem isInt_atoi (s : CString) : IsInt (atoi s) := isInt_toInt _

/-- Whatever the arguments are, a process is given by an `int`. -/
theorem isInt_of_main {args : List CString} {c : Call} (h : main args = .call c) :
    ∀ pid ∈ c.pid, IsInt pid := by
  unfold main at h
  simp only at h
  split_ifs at h
  split at h
  · cases h
  · next o _ =>
    split_ifs at h
    cases h
    intro pid hpid
    cases o <;> cases hpid <;> exact isInt_atoi _

/-- The line of a call asks for it, if its process can be given at all. -/
theorem main_line (name : CString) (c : Call) :
    main (name :: c.line) = .call c ↔ ∀ pid ∈ c.pid, IsInt pid := by
  refine ⟨isInt_of_main, fun hpid => ?_⟩
  cases c with
  | freeFc pfnBegin pfnEnd =>
    rw [Call.line, main_option name .freefc _ rfl]
    simp only [Opt.call, List.getD_cons_succ, List.getD_cons_zero, strtoul_hexText]
  | frameInfo pfn =>
    rw [Call.line, main_option name .frameinfo _ rfl]
    simp only [Opt.call, List.getD_cons_succ, List.getD_cons_zero, strtoul_hexText]
  | memUsed pid =>
    rw [Call.line, main_option name .memused _ rfl]
    simp only [Opt.call, List.getD_cons_succ, List.getD_cons_zero, atoi_intText (hpid pid rfl)]
  | mapVa pid VA =>
    rw [Call.line, main_option name .mapva _ rfl]
    simp only [Opt.call, List.getD_cons_succ, List.getD_cons_zero, atoi_intText (hpid pid rfl),
      strtoul_hexText]
  | pte pid VA =>
    rw [Call.line, main_option name .pte _ rfl]
    simp only [Opt.call, List.getD_cons_succ, List.getD_cons_zero, atoi_intText (hpid pid rfl),
      strtoul_hexText]
  | mapRange pid VA1 VA2 =>
    rw [Call.line, main_option name .maprange _ rfl]
    simp only [Opt.call, List.getD_cons_succ, List.getD_cons_zero, atoi_intText (hpid pid rfl),
      strtoul_hexText]
  | mapAll pid =>
    rw [Call.line, main_option name .mapall _ rfl]
    simp only [Opt.call, List.getD_cons_succ, List.getD_cons_zero, atoi_intText (hpid pid rfl)]
  | mapAllIn pid =>
    rw [Call.line, main_option name .mapallin _ rfl]
    simp only [Opt.call, List.getD_cons_succ, List.getD_cons_zero, atoi_intText (hpid pid rfl)]
  | allTableSize pid =>
    rw [Call.line, main_option name .alltablesize _ rfl]
    simp only [Opt.call, List.getD_cons_succ, List.getD_cons_zero, atoi_intText (hpid pid rfl)]

/-! ## Frames that are handed on -/

def MapLine.text : MapLine → CString
  | .frame page pfn =>
    ascii "Page " ++ numeral 16 1 page.toNat ++ ascii ": Frame " ++ numeral 16 1 pfn.toNat ++
      ascii "\n"
  | .notInMemory page => ascii "Page " ++ numeral 16 1 page.toNat ++ ascii ": not-in-memory\n"
  | .fault .error => ascii "Error reading from pagemap"
  | .fault .endOfFile => ascii "End of pagemap"

def VaLine.text : VaLine → CString
  | .frame pfn => hexText 16 pfn ++ ascii "\n"
  | .notInMemory => ascii "VA not in memory.\n"

/-- The last word of a text. -/
def lastWord (s : CString) : CString :=
  ((s.reverse.dropWhile isSpace).takeWhile (!isSpace ·)).reverse

theorem lastWord_append {front word blanks : CString} (hword : ∀ c ∈ word, isSpace c = false)
    (hne : word ≠ []) (hfront : ∀ c ∈ front.getLast?, isSpace c = true)
    (hblanks : ∀ c ∈ blanks, isSpace c = true) : lastWord (front ++ (word ++ blanks)) = word := by
  have hdrop : (blanks.reverse ++ (word.reverse ++ front.reverse)).dropWhile isSpace =
      word.reverse ++ front.reverse := by
    refine (takeWhile_append_eq (fun c hc => hblanks c (List.mem_reverse.mp hc)) ?_).2
    rw [List.head?_append_of_ne_nil _ (by simpa using hne)]
    exact fun c hc => hword c (List.mem_reverse.mp (List.mem_of_mem_head? hc))
  have htake : (word.reverse ++ front.reverse).takeWhile (!isSpace ·) = word.reverse := by
    refine (takeWhile_append_eq ?_ ?_).1
    · intro c hc
      rw [hword c (List.mem_reverse.mp hc)]
      rfl
    · rw [List.head?_reverse]
      intro c hc
      rw [hfront c hc]
      rfl
  rw [lastWord, List.reverse_append, List.reverse_append, List.append_assoc, hdrop, htake,
    List.reverse_reverse]

/-- There is no blank in a number. -/
theorem isSpace_of_digit {c : Byte} (h : isDigitOf 16 c = true) : isSpace c = false :=
  (not_digit c h).2.2

theorem not_isSpace_numeral (width : ℕ) (x : Word) :
    ∀ c ∈ numeral 16 width x.toNat, isSpace c = false := fun _ hc =>
  isSpace_of_digit (isDigitOf_of_mem_numeral (by decide) le_rfl hc)

theorem lastWord_mapLine (page pfn : Word) :
    lastWord (MapLine.frame page pfn).text = numeral 16 1 pfn.toNat := by
  have hend : (ascii ": Frame ").getLast? = some space := by decide +kernel
  rw [MapLine.text, List.append_assoc]
  refine lastWord_append (not_isSpace_numeral 1 pfn)
    (List.ne_nil_of_length_pos (le_length_numeral 16 1 _)) ?_ (by decide +kernel)
  rw [List.getLast?_append_of_ne_nil _ (by decide +kernel), hend]
  rintro c ⟨⟩
  decide

theorem lastWord_vaLine (pfn : Word) : lastWord (VaLine.frame pfn).text = hexText 16 pfn := by
  rw [VaLine.text, ← List.nil_append (hexText 16 pfn ++ ascii "\n")]
  refine lastWord_append ?_ (List.cons_ne_nil _ _) (by simp) (by decide +kernel)
  intro c hc
  rcases List.mem_append.mp hc with hc | hc
  · have hmark : ∀ c ∈ ascii "0x", isSpace c = false := by decide +kernel
    exact hmark c hc
  · exact not_isSpace_numeral 16 pfn c hc

/-- A frame that `map_va` prints can be handed to an option that takes a frame, and one that `map`
prints only if it is a single digit: `map` prints no mark, and a number without one is decimal. -/
theorem frame_argument (name : CString) (page pfn : Word) :
    main [name, Opt.frameinfo.text, lastWord (VaLine.frame pfn).text] = .call (.frameInfo pfn) ∧
      (main [name, Opt.frameinfo.text, lastWord (MapLine.frame page pfn).text] =
        .call (.frameInfo pfn) ↔ pfn.toNat < 10) := by
  rw [lastWord_mapLine, lastWord_vaLine, main_option name .frameinfo _ rfl,
    main_option name .frameinfo _ rfl]
  simp only [Opt.call, List.getD_cons_succ, List.getD_cons_zero, strtoul_hexText, true_and,
    Outcome.call.injEq, Call.frameInfo.injEq, strtoul_numeral_iff]

end Cs342.MemUtils
