import LuaAdaLoad.Text.CStrings

/-!
# The program lua-ada-load-conf

The program prints directories and flags for those who build against the library. `parse_flags`
collects the operators that are given in the bits of `flag`, `call_flags` calls their functions in
the order of the table. Which operators are given decides all that is printed: `flag` is the union
of the bits of the recognised words, whatever their order and number (`parseArgs_sets`).
-/

namespace LuaAdaLoad.Build.LoadConf

open LuaAdaLoad.Text.Initializers LuaAdaLoad.Text.CStrings

/-! ### Comparing strings -/

/-- `u = *s; if (u != *t) break; if (!u) break; ++s; ++t;`, for what is left of the two arrays. A
break returns the difference, `none` where a read is outside of an array. -/
def compareOne : List Byte → List Byte → Except (Option ℤ) (List Byte × List Byte)
  | u :: s, v :: t =>
    if u ≠ v then .error (some (u.val - v.val))
    else if u = 0 then .error (some (u.val - v.val))
    else .ok (s, t)
  | _, _ => .error none

/-- The body of the loop. -/
def compareFour (s t : List Byte) : Except (Option ℤ) (List Byte × List Byte) := do
  let (s, t) ← compareOne s t
  let (s, t) ← compareOne s t
  let (s, t) ← compareOne s t
  compareOne s t

theorem compareOne_shorter {s t : List Byte} {p : List Byte × List Byte}
    (h : compareOne s t = .ok p) : p.1.length < s.length := by
  match s, t with
  | u :: s, v :: t =>
    rw [compareOne] at h
    split_ifs at h
    obtain rfl : (s, t) = p := by simpa using h
    exact Nat.lt_succ_self _
  | [], _ => simp [compareOne] at h
  | _ :: _, [] => simp [compareOne] at h

theorem bind_eq_ok {ε α β : Type} {x : Except ε α} {k : α → Except ε β} {b : β}
    (h : x >>= k = .ok b) : ∃ a, x = .ok a ∧ k a = .ok b := by
  cases x with
  | error e => exact absurd h nofun
  | ok a => exact ⟨a, rfl, h⟩

theorem compareFour_shorter {s t : List Byte} {p : List Byte × List Byte}
    (h : compareFour s t = .ok p) : p.1.length < s.length := by
  obtain ⟨p₁, h₁, h⟩ := bind_eq_ok h
  obtain ⟨p₂, h₂, h⟩ := bind_eq_ok h
  obtain ⟨p₃, h₃, h⟩ := bind_eq_ok h
  exact (compareOne_shorter h).trans <| (compareOne_shorter h₃).trans <|
    (compareOne_shorter h₂).trans (compareOne_shorter h₁)

/-- `str_diff`. -/
def strDiff (s t : List Byte) : Option ℤ :=
  match _h : compareFour s t with
  | .error r => r
  | .ok p => strDiff p.1 p.2
termination_by s.length
decreasing_by exact compareFour_shorter ‹_›

/-! ### The table -/

/-- `unsigned int`. -/
abbrev Word := BitVec 32

def flagIncdirBit : Word := 0x0001
def flagDlibdirBit : Word := 0x0002
def flagSlibdirBit : Word := 0x0004
def flagNewlineBit : Word := 0x0008
def flagVersionBit : Word := 0x0010
def flagCompileBit : Word := 0x0020
def flagHelpBit : Word := 0x0040
def flagCflagsBit : Word := 0x0080
def flagLdflagsBit : Word := 0x0100

/-- The functions that the table points to. -/
inductive Func where
  | flagHelp
  | flagIncdir
  | flagCflags
  | flagDlibdir
  | flagSlibdir
  | flagLdflags
  | flagVersion
  | flagNewline
deriving DecidableEq

/-- A row of the table; the function may be a null pointer. -/
structure Flag where
  flag : CString
  func : Option Func
  val : Word
  desc : List Byte
deriving DecidableEq

/-- `flags`. -/
def flags : List Flag :=
  [⟨⟨ascii "help".toList, by decide⟩, some .flagHelp, flagHelpBit,
      ascii "this message".toList⟩,
    ⟨⟨ascii "compile".toList, by decide⟩, none, flagCompileBit,
      ascii "modify output for use as compiler flags".toList⟩,
    ⟨⟨ascii "incdir".toList, by decide⟩, some .flagIncdir, flagIncdirBit,
      ascii "print include directory".toList⟩,
    ⟨⟨ascii "cflags".toList, by decide⟩, some .flagCflags, flagCflagsBit,
      ascii "output required compiler flags".toList⟩,
    ⟨⟨ascii "dlibdir".toList, by decide⟩, some .flagDlibdir, flagDlibdirBit,
      ascii "print dynamic library directory".toList⟩,
    ⟨⟨ascii "slibdir".toList, by decide⟩, some .flagSlibdir, flagSlibdirBit,
      ascii "print static library directory".toList⟩,
    ⟨⟨ascii "ldflags".toList, by decide⟩, some .flagLdflags, flagLdflagsBit,
      ascii "output required linker flags".toList⟩,
    ⟨⟨ascii "version".toList, by decide⟩, some .flagVersion, flagVersionBit,
      ascii "print library version".toList⟩,
    ⟨⟨ascii "newline".toList, by decide⟩, some .flagNewline, flagNewlineBit,
      ascii "print trailing newline".toList⟩]

/-! ### The program -/

/-- The strings of the build that are linked into the program. -/
structure Ctxt where
  version : List Byte
  incdir : List Byte
  dlibdir : List Byte
  slibdir : List Byte

/-- The static variable, and what has been printed. -/
structure State where
  flag : Word
  out : List Byte

/-- What is printed and the exit status. -/
structure Result where
  out : List Byte
  status : ℕ
deriving DecidableEq

/-- The ways to leave a function early: `exit`, or a read outside of a string. -/
inductive Stop where
  | exit (r : Result)
  | wild

def State.print (s : State) (text : List Byte) : State := { s with out := s.out ++ text }

/-- `progname`. -/
def progname : List Byte := ascii "lua-load-conf".toList

def usage (s : State) : State := s.print (progname ++ ascii ": [help] ops ...\n".toList)

/-- `printf ("%s - %s\n", …)`. -/
def helpLine (e : Flag) : List Byte :=
  e.flag.bytes ++ ascii " - ".toList ++ e.desc ++ ascii "\n".toList

def help (s : State) : Except Stop State :=
  let s := (usage s).print (ascii "possible operators:\n".toList)
  let s := flags.foldl (fun s e => s.print (helpLine e)) s
  .error (.exit ⟨s.out, 0⟩)

/-- `flag & FLAG_COMPILE`. -/
def compiling (s : State) : Bool := s.flag &&& flagCompileBit ≠ 0

/-- `printf ("%s ", …)`. -/
def State.printWord (s : State) (text : List Byte) : State := s.print (text ++ ascii " ".toList)

def flagIncdir (c : Ctxt) (s : State) : State :=
  if compiling s then s.print (ascii "-I".toList ++ c.incdir ++ ascii " ".toList)
  else s.printWord c.incdir

/-- `flag_dlibdir` and `flag_slibdir`, for their directory. -/
def flagLibdir (dir : List Byte) (s : State) : State :=
  let s := if compiling s then s.print (ascii "-L".toList) else s
  s.printWord dir

def flagDlibdir (c : Ctxt) : State → State := flagLibdir c.dlibdir

def flagSlibdir (c : Ctxt) : State → State := flagLibdir c.slibdir

def flagCflags (s : State) : State := s

def flagLdflags (s : State) : State := s.print (ascii "-llua-load ".toList)

def flagVersion (c : Ctxt) (s : State) : State := s.printWord c.version

def flagNewline (s : State) : State := s.print (ascii "\n".toList)

/-- The call of a function through the table. -/
def callFunc (c : Ctxt) : Func → State → Except Stop State
  | .flagHelp, s => help s
  | .flagIncdir, s => .ok (flagIncdir c s)
  | .flagCflags, s => .ok (flagCflags s)
  | .flagDlibdir, s => .ok (flagDlibdir c s)
  | .flagSlibdir, s => .ok (flagSlibdir c s)
  | .flagLdflags, s => .ok (flagLdflags s)
  | .flagVersion, s => .ok (flagVersion c s)
  | .flagNewline, s => .ok (flagNewline s)

/-- The inner loop of `parse_flags`: the row at which it breaks. -/
def findFlag (arg : CString) : List Flag → Except Stop (Option Flag)
  | [] => .ok none
  | e :: es =>
    match strDiff arg.array e.flag.array with
    | none => .error .wild
    | some d => if d = 0 then .ok (some e) else findFlag arg es

/-- The outer loop of `parse_flags`. -/
def parseArgs : List CString → State → Except Stop State
  | [], s => .ok s
  | arg :: args, s => do
    match ← findFlag arg flags with
    | some e => parseArgs args { s with flag := s.flag ||| e.val }
    | none => parseArgs args s

/-- `parse_flags`, for all of `argv`. -/
def parseFlags (argv : List CString) (s : State) : Except Stop State :=
  let argc : ℤ := argv.length - 1
  if argc = 0 then .error (.exit ⟨(usage s).out, 111⟩)
  else parseArgs argv.tail { s with flag := 0 }

/-- `if (flags[ind].func) flags[ind].func ();` -/
def callRow (c : Ctxt) (e : Flag) (s : State) : Except Stop State :=
  match e.func with
  | some func => callFunc c func s
  | none => .ok s

/-- The loop of `call_flags`. -/
def callFrom (c : Ctxt) : List Flag → State → Except Stop State
  | [], s => .ok s
  | e :: es, s => do
    let s ← if s.flag &&& e.val ≠ 0 then callRow c e s else .ok s
    callFrom c es s

/-- `call_flags`. -/
def callFlags (c : Ctxt) : State → Except Stop State := callFrom c flags

/-- `main`; whether `fflush` succeeds may depend on what was printed. `none` is a read outside of a
string. -/
def main (c : Ctxt) (flushed : List Byte → Bool) (argv : List CString) : Option Result :=
  match parseFlags argv ⟨0, []⟩ >>= callFlags c with
  | .ok s => some ⟨s.out, if flushed s.out then 0 else 112⟩
  | .error (.exit r) => some r
  | .error .wild => none

/-! ### The comparison -/

/-- The result of a comparison that broke, or the difference of what is left. -/
def continued : Except (Option ℤ) (List Byte × List Byte) → Option ℤ
  | .error r => r
  | .ok p => difference p.1 p.2

theorem continued_compareOne (s t : List Byte) :
    continued (compareOne s t) = difference s t := by
  match s, t with
  | u :: s, v :: t =>
    rw [compareOne, difference]
    split_ifs <;> rfl
  | [], _ => simp [compareOne, difference, continued]
  | _ :: _, [] => simp [compareOne, difference, continued]

/-- A comparison goes on with what the one before has left. -/
theorem continued_bind {s t : List Byte}
    {k : List Byte × List Byte → Except (Option ℤ) (List Byte × List Byte)}
    (hk : ∀ p, continued (k p) = difference p.1 p.2) :
    continued (compareOne s t >>= k) = difference s t := by
  rw [← continued_compareOne]
  cases compareOne s t with
  | error r => rfl
  | ok p => exact hk p

theorem continued_compareFour (s t : List Byte) :
    continued (compareFour s t) = difference s t :=
  continued_bind fun _ => continued_bind fun _ => continued_bind fun _ => continued_compareOne _ _

/-- **The unrolled loop** computes the difference. -/
theorem strDiff_eq (s t : List Byte) : strDiff s t = difference s t := by
  induction s, t using strDiff.induct with
  | case1 s t r hfour =>
    rw [strDiff, hfour, ← continued_compareFour, hfour]
    rfl
  | case2 s t p hfour ih =>
    rw [strDiff, hfour, ← continued_compareFour, hfour]
    exact ih

/-! ### The operators that are given -/

/-- The word makes the inner loop of `parse_flags` break. -/
def Recognised (arg : CString) : Prop := ∃ e, findFlag arg flags = .ok (some e)

theorem findFlag_eq (arg : CString) (es : List Flag) :
    findFlag arg es = .ok (es.find? fun e => arg = e.flag) := by
  induction es with
  | nil => rfl
  | cons e es ih =>
    obtain ⟨d, hd, hiff⟩ := difference_eq_zero_iff arg e.flag
    rw [findFlag, strDiff_eq, hd]
    by_cases heq : arg = e.flag
    · simp [hiff.mpr heq, heq]
    · have hne : d ≠ 0 := fun h => heq (hiff.mp h)
      simp [hne, heq, ih]

theorem flag_inj {e e' : Flag} (h : e ∈ flags) (h' : e' ∈ flags) (hflag : e.flag = e'.flag) :
    e = e' :=
  List.inj_on_of_nodup_map (by decide) h h' hflag

theorem findFlag_of_mem {e : Flag} (h : e ∈ flags) : findFlag e.flag flags = .ok (some e) := by
  obtain ⟨e', he'⟩ : ∃ e', flags.find? (fun e' => e.flag = e'.flag) = some e' :=
    Option.isSome_iff_exists.mp (List.find?_isSome.mpr ⟨e, h, by simp⟩)
  have hflag : e.flag = e'.flag := by simpa using List.find?_some he'
  rw [findFlag_eq, he', flag_inj h (List.mem_of_find?_eq_some he') hflag]

theorem recognised_iff (arg : CString) :
    Recognised arg ↔ ∃ e ∈ flags, arg.bytes = e.flag.bytes := by
  constructor
  · rintro ⟨e, he⟩
    rw [findFlag_eq, Except.ok.injEq] at he
    have hflag : arg = e.flag := by simpa using List.find?_some he
    exact ⟨e, List.mem_of_find?_eq_some he, by rw [hflag]⟩
  · rintro ⟨e, he, hbytes⟩
    rw [CString.ext hbytes]
    exact ⟨e, findFlag_of_mem he⟩

/-- An operator among the words has the bit. -/
def Sets (args : List CString) (k : ℕ) : Prop :=
  ∃ e ∈ flags, e.flag ∈ args ∧ e.val.getLsbD k = true

theorem sets_cons_of_mem {e : Flag} (he : e ∈ flags) (args : List CString) (k : ℕ) :
    Sets (e.flag :: args) k ↔ e.val.getLsbD k = true ∨ Sets args k := by
  constructor
  · rintro ⟨e', he', hmem, hbit⟩
    rcases List.mem_cons.mp hmem with hflag | hmem
    · rw [flag_inj he' he hflag] at hbit
      exact Or.inl hbit
    · exact Or.inr ⟨e', he', hmem, hbit⟩
  · rintro (hbit | ⟨e', he', hmem, hbit⟩)
    · exact ⟨e, he, List.mem_cons_self, hbit⟩
    · exact ⟨e', he', List.mem_cons_of_mem _ hmem, hbit⟩

theorem sets_cons_of_not {arg : CString} (harg : ¬ Recognised arg) (args : List CString) (k : ℕ) :
    Sets (arg :: args) k ↔ Sets args k := by
  constructor
  · rintro ⟨e, he, hmem, hbit⟩
    rcases List.mem_cons.mp hmem with hflag | hmem
    · exact absurd ⟨e, hflag ▸ findFlag_of_mem he⟩ harg
    · exact ⟨e, he, hmem, hbit⟩
  · rintro ⟨e, he, hmem, hbit⟩
    exact ⟨e, he, List.mem_cons_of_mem _ hmem, hbit⟩

/-- **`flag` is the union** of the bits of the recognised words. -/
theorem parseArgs_sets (args : List CString) (s : State) :
    ∃ s', parseArgs args s = .ok s' ∧ s'.out = s.out ∧
      ∀ k, s'.flag.getLsbD k = true ↔ s.flag.getLsbD k = true ∨ Sets args k := by
  induction args generalizing s with
  | nil => exact ⟨s, rfl, rfl, fun k => by simp [Sets]⟩
  | cons arg args ih =>
    by_cases harg : Recognised arg
    · obtain ⟨e, he, hbytes⟩ := (recognised_iff arg).mp harg
      obtain rfl : arg = e.flag := CString.ext hbytes
      obtain ⟨s', hrun, hout, hbits⟩ := ih { s with flag := s.flag ||| e.val }
      refine ⟨s', ?_, hout, fun k => ?_⟩
      · rw [parseArgs, findFlag_of_mem he]
        exact hrun
      · rw [hbits, sets_cons_of_mem he, BitVec.getLsbD_or, Bool.or_eq_true, or_assoc]
    · obtain ⟨s', hrun, hout, hbits⟩ := ih s
      refine ⟨s', ?_, hout, fun k => ?_⟩
      · have hnone : findFlag arg flags = .ok none := by
          rw [findFlag_eq]
          cases hfind : flags.find? (fun e => arg = e.flag) with
          | none => rfl
          | some e => exact absurd ⟨e, by rw [findFlag_eq, hfind]⟩ harg
        rw [parseArgs, hnone]
        exact hrun
      · rw [hbits, sets_cons_of_not harg]

/-- The words of an argument list set the bits that the program works with. -/
theorem parseFlags_sets (prog : CString) {args : List CString} (hargs : args ≠ []) (s : State) :
    ∃ s', parseFlags (prog :: args) s = .ok s' ∧ s'.out = s.out ∧
      ∀ k, s'.flag.getLsbD k = true ↔ Sets args k := by
  obtain ⟨s', hrun, hout, hbits⟩ := parseArgs_sets args { s with flag := 0 }
  refine ⟨s', ?_, hout, fun k => ?_⟩
  · have hlength : ((prog :: args).length : ℤ) - 1 ≠ 0 := by
      have := List.length_pos_iff.mpr hargs
      simp only [List.length_cons]
      omega
    rw [parseFlags, if_neg hlength]
    exact hrun
  · rw [hbits]
    simp

theorem sets_congr {args args' : List CString}
    (h : ∀ w, Recognised w → (w ∈ args ↔ w ∈ args')) (k : ℕ) : Sets args k ↔ Sets args' k := by
  unfold Sets
  refine exists_congr fun e => and_congr_right fun he => and_congr_left fun _ => ?_
  exact h e.flag ⟨e, findFlag_of_mem he⟩

/-! ### The functions that are called -/

theorem and_ne_zero_iff (x y : Word) :
    x &&& y ≠ 0 ↔ ∃ k, x.getLsbD k = true ∧ y.getLsbD k = true := by
  constructor
  · intro h
    by_contra hno
    refine h (BitVec.eq_of_getLsbD_eq fun k _ => ?_)
    by_contra hbit
    have hboth : x.getLsbD k = true ∧ y.getLsbD k = true := by simpa using hbit
    exact hno ⟨k, hboth⟩
  · rintro ⟨k, hx, hy⟩ h
    have hbit := congrArg (fun w : Word => w.getLsbD k) h
    simp [hx, hy] at hbit

/-- The bits of the rows are different. -/
theorem row_of_bits {e e' : Flag} (h : e ∈ flags) (h' : e' ∈ flags) (hand : e'.val &&& e.val ≠ 0) :
    e' = e := by
  have hrows : ∀ e ∈ flags, ∀ e' ∈ flags, e'.val &&& e.val ≠ 0 → e' = e := by decide
  exact hrows e h e' h' hand

/-- The bit of an operator is set just if it is among the words. -/
theorem given_iff {args : List CString} {w : Word} (hbits : ∀ k, w.getLsbD k = true ↔ Sets args k)
    {e : Flag} (he : e ∈ flags) : w &&& e.val ≠ 0 ↔ e.flag ∈ args := by
  rw [and_ne_zero_iff]
  constructor
  · rintro ⟨k, hw, hk⟩
    obtain ⟨e', he', hmem, hk'⟩ := (hbits k).mp hw
    rwa [← row_of_bits he he' ((and_ne_zero_iff _ _).mpr ⟨k, hk', hk⟩)]
  · intro hmem
    have hself : ∀ e ∈ flags, e.val &&& e.val ≠ 0 := by decide
    obtain ⟨k, hk, -⟩ := (and_ne_zero_iff _ _).mp (hself e he)
    exact ⟨k, (hbits k).mpr ⟨e, he, hmem, hk⟩, hk⟩

/-- A function that returns leaves `flag` as it was. -/
theorem callRow_flag {c : Ctxt} {e : Flag} {s s' : State} (h : callRow c e s = .ok s') :
    s'.flag = s.flag := by
  have hlib : ∀ dir, (flagLibdir dir s).flag = s.flag := fun dir => by
    unfold flagLibdir
    split_ifs <;> rfl
  cases hfunc : e.func with
  | none =>
    obtain rfl : s = s' := by simpa [callRow, hfunc] using h
    rfl
  | some func =>
    rw [callRow, hfunc] at h
    cases func with
    | flagHelp => exact absurd h nofun
    | flagIncdir =>
      obtain rfl := Except.ok.inj h
      unfold flagIncdir
      split_ifs <;> rfl
    | flagDlibdir => exact Except.ok.inj h ▸ hlib c.dlibdir
    | flagSlibdir => exact Except.ok.inj h ▸ hlib c.slibdir
    | _ =>
      obtain rfl := Except.ok.inj h
      rfl

/-- **The functions of the given operators** are called, in the order of the table. -/
theorem callFrom_given {args : List CString} (c : Ctxt) {es : List Flag} (hes : es ⊆ flags)
    {s : State} (hbits : ∀ k, s.flag.getLsbD k = true ↔ Sets args k) :
    callFrom c es s = (es.filter fun e => e.flag ∈ args).foldlM (fun s e => callRow c e s) s := by
  induction es generalizing s with
  | nil => rfl
  | cons e es ih =>
    have hrest : es ⊆ flags := fun e he => hes (List.mem_cons_of_mem _ he)
    have hgiven := given_iff hbits (hes List.mem_cons_self)
    by_cases he : e.flag ∈ args
    · rw [callFrom, if_pos (hgiven.mpr he), List.filter_cons_of_pos (by simpa using he),
        List.foldlM_cons]
      cases hrow : callRow c e s with
      | error r => rfl
      | ok s' => exact ih hrest (callRow_flag hrow ▸ hbits)
    · rw [callFrom, if_neg (mt hgiven.mp he), List.filter_cons_of_neg (by simpa using he)]
      exact ih hrest hbits

theorem callRow_not_wild (c : Ctxt) (e : Flag) (s : State) : callRow c e s ≠ .error .wild := by
  unfold callRow
  cases e.func with
  | none => nofun
  | some func => cases func <;> nofun

theorem callFrom_not_wild (c : Ctxt) (es : List Flag) (s : State) :
    callFrom c es s ≠ .error .wild := by
  induction es generalizing s with
  | nil => nofun
  | cons e es ih =>
    rw [callFrom]
    split_ifs
    · cases hrow : callRow c e s with
      | error r => exact fun h => callRow_not_wild c e s (hrow.trans h)
      | ok s' => exact ih s'
    · exact ih s

/-! ### What is printed -/

/-- **The given operators decide** what the program prints and how it ends: two argument lists with
the same recognised words are treated alike. -/
theorem main_congr :
    (∀ arg, Recognised arg ↔ ∃ e ∈ flags, arg.bytes = e.flag.bytes) ∧
      ∀ (c : Ctxt) (flushed : List Byte → Bool) (prog prog' : CString) (args args' : List CString),
        args ≠ [] → args' ≠ [] → (∀ w, Recognised w → (w ∈ args ↔ w ∈ args')) →
        ∃ r, main c flushed (prog :: args) = some r ∧ main c flushed (prog' :: args') = some r := by
  refine ⟨recognised_iff, fun c flushed prog prog' args args' hargs hargs' hwords => ?_⟩
  obtain ⟨s, hrun, hout, hbits⟩ := parseFlags_sets prog hargs ⟨0, []⟩
  obtain ⟨s', hrun', hout', hbits'⟩ := parseFlags_sets prog' hargs' ⟨0, []⟩
  have hflag : s.flag = s'.flag := BitVec.eq_of_getLsbD_eq fun k _ =>
    Bool.eq_iff_iff.mpr <| (hbits k).trans <| (sets_congr hwords k).trans (hbits' k).symm
  obtain rfl : s = s' := by
    cases s
    cases s'
    exact (State.mk.injEq ..).mpr ⟨hflag, hout.trans hout'.symm⟩
  have hsame : main c flushed (prog' :: args') = main c flushed (prog :: args) := by
    rw [main, main, hrun, hrun']
  obtain ⟨r, hr⟩ : ∃ r, main c flushed (prog :: args) = some r := by
    rw [main, hrun]
    change ∃ r, (match callFlags c s with
      | .ok s => some _ | .error (.exit r) => some r | .error .wild => none) = some r
    cases hcall : callFlags c s with
    | ok t => exact ⟨_, rfl⟩
    | error stop =>
      cases stop with
      | exit r => exact ⟨r, rfl⟩
      | wild => exact absurd hcall (callFrom_not_wild c flags s)
  exact ⟨r, hr, hsame.trans hr⟩

def sampleCtxt : Ctxt :=
  ⟨ascii "1".toList, ascii "/inc".toList, ascii "/dl".toList, ascii "/sl".toList⟩

def wordCompile : CString := ⟨ascii "compile".toList, by decide⟩

def wordIncdir : CString := ⟨ascii "incdir".toList, by decide⟩

def wordUnknown : CString := ⟨ascii "incdirs".toList, by decide⟩

theorem main_congr_incdir :
    (∀ arg, Recognised arg ↔ ∃ e ∈ flags, arg.bytes = e.flag.bytes) ∧
      ∃ r, main sampleCtxt (fun _ => true) [wordUnknown, wordIncdir, wordCompile] = some r ∧
        main sampleCtxt (fun _ => true)
          [wordUnknown, wordCompile, wordUnknown, wordIncdir, wordCompile] = some r := by
  have hrows : ∀ e ∈ flags, e.flag ∈ [wordIncdir, wordCompile] ↔
      e.flag ∈ [wordCompile, wordUnknown, wordIncdir, wordCompile] := by decide
  refine ⟨main_congr.1, main_congr.2 sampleCtxt (fun _ => true) _ _ _ _ (by simp) (by simp) ?_⟩
  intro w hw
  obtain ⟨e, he, hbytes⟩ := (recognised_iff w).mp hw
  rw [CString.ext hbytes]
  exact hrows e he

end LuaAdaLoad.Build.LoadConf
