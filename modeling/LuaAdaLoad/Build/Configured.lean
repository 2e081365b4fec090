import LuaAdaLoad.Build.MkCtxt
import LuaAdaLoad.Build.LoadConf

/-!
# What lua-ada-load-conf says of the configuration

The strings that the program prints come from one-line files: `mk-ctxt` writes each of them as an
array, the compiler reads the array, and `lua-ada-load-conf` prints it as a string. Here the two
programs are put together. For all words that are given, the program prints the lines of the files,
in the order of its table, with the options of a compiler if they are asked for (`configured`).
-/

namespace LuaAdaLoad.Build.Configured

open LuaAdaLoad.Text.Initializers LuaAdaLoad.Text.CStrings
open LuaAdaLoad.Build.MkCtxt (newline bufSize arrayOf initial Holds Plain ending readAll_pieces
  arrayOf_main)
open LuaAdaLoad.Build.LoadConf (Flag State Result Stop flags callFlags callRow
  given_iff callFrom_given parseFlags_sets compiling)

/-! ### A file of one line -/

/-- A file of one line, in the pieces that `read` delivers. -/
structure OneLine where
  line : List Byte
  pieces : List (List Byte)
  plain : newline ∉ line ∧ 0 ∉ line
  sizes : ∀ piece ∈ pieces, 1 ≤ piece.length ∧ piece.length ≤ 1024
  whole : pieces.flatten = line ++ [newline]

namespace OneLine

/-- A short line, delivered at once. -/
def ofShort (line : List Byte) (plain : newline ∉ line ∧ 0 ∉ line) (short : line.length < 1024) :
    OneLine where
  line := line
  pieces := [line ++ [newline]]
  plain := plain
  sizes := by
    intro piece hp
    rw [List.mem_singleton.mp hp, List.length_append]
    exact ⟨Nat.le_add_left _ _, short⟩
  whole := List.append_nil _

variable (f : OneLine)

/-- The string that the compiled array holds, from what `mk-ctxt` prints. -/
def embedded (signed built : Bool) (name : List Char) : List Byte :=
  stringOf (arrayOf name (MkCtxt.main signed built [name] (f.pieces.map some)).1)

/-- The newline is in a piece where `mk-ctxt` finds it. -/
def Cleared : Prop := ∃ last, f.pieces.getLast? = some last ∧ 2 ≤ last.length ∧ last.length ≤ 1023

instance : Decidable f.Cleared :=
  match h : f.pieces.getLast? with
  | none => .isFalse fun ⟨_, hlast, _⟩ => by simp [h] at hlast
  | some last =>
    if hlen : 2 ≤ last.length ∧ last.length ≤ 1023 then .isTrue ⟨last, h, hlen⟩
    else .isFalse fun ⟨_, hlast, hlen'⟩ => hlen (Option.some.inj (h ▸ hlast) ▸ hlen')

/-- The line, and the newline where it is not found. -/
def kept : List Byte := f.line ++ if f.Cleared then [] else [newline]

theorem embedded_eq (signed built : Bool) (name : List Char) :
    f.embedded signed built name = f.kept := by
  have hbounds : ∀ piece ∈ f.pieces, piece ≠ [] ∧ piece.length ≤ bufSize := fun piece hp =>
    ⟨List.length_pos_iff.mp (f.sizes piece hp).1, (f.sizes piece hp).2⟩
  have hstart : Holds name (initial name) [] := ⟨[], by simp [initial], MkCtxt.readsAs_nil⟩
  have hplain : Plain (initial name).buf := fun i => (by decide : (0 : Byte) ≠ newline)
  obtain ⟨t, last, hlast, hrun, hholds⟩ :=
    readAll_pieces signed hbounds f.whole f.plain.1 hstart hplain
  have hnonzero : ∀ b ∈ f.line, b ≠ 0 := fun b hb h => f.plain.2 (h ▸ hb)
  have hcleared : f.Cleared ↔ 1 < last.length ∧ last.length < bufSize := by
    unfold Cleared
    rw [hlast]
    constructor
    · rintro ⟨_, hsame, hlen⟩
      obtain rfl := Option.some.inj hsame
      simp only [bufSize]
      omega
    · intro hlen
      simp only [bufSize] at hlen
      exact ⟨last, rfl, by omega, by omega⟩
  have hstring : stringOf ([] ++ (f.line ++ [ending last.length]) ++ [0]) =
      f.line ++ stringOf [ending last.length, 0] := by
    unfold stringOf
    rw [List.nil_append, List.append_assoc,
      List.takeWhile_append_of_pos (by simpa using hnonzero)]
    rfl
  rw [embedded, arrayOf_main hrun hholds, hstring, kept, ending]
  by_cases h : 1 < last.length ∧ last.length < bufSize
  · rw [if_pos h, if_pos (hcleared.mpr h)]
    rfl
  · rw [if_neg h, if_neg (mt hcleared.mp h)]
    rfl

end OneLine

/-- The files that the build embeds. -/
structure Config where
  version : OneLine
  incdir : OneLine
  dlibdir : OneLine
  slibdir : OneLine

/-- The strings that are linked into the program. -/
def Config.ctxt (f : Config) (signed built : Bool) : LoadConf.Ctxt :=
  ⟨f.version.embedded signed built "ctxt_version".toList,
    f.incdir.embedded signed built "ctxt_incdir".toList,
    f.dlibdir.embedded signed built "ctxt_dlibdir".toList,
    f.slibdir.embedded signed built "ctxt_slibdir".toList⟩

/-! ### What is expected -/

/-- The word is among the arguments. -/
def Given (args : List CString) (word : List Byte) : Prop := ∃ arg ∈ args, arg.bytes = word

instance (args : List CString) (word : List Byte) : Decidable (Given args word) :=
  inferInstanceAs (Decidable (∃ arg ∈ args, arg.bytes = word))

/-- The text, if the word is given. -/
def when (args : List CString) (word text : List Byte) : List Byte :=
  if Given args word then text else []

/-- A directory, as an option of the compiler if that is asked for. -/
def directory (args : List CString) (option : List Byte) (f : OneLine) : List Byte :=
  when args (ascii "compile".toList) option ++ f.kept ++ ascii " ".toList

def usageText : List Byte := LoadConf.progname ++ ascii ": [help] ops ...\n".toList

def helpText : List Byte :=
  usageText ++ ascii "possible operators:\n".toList ++ flags.flatMap LoadConf.helpLine

/-- What is printed for the operators other than `help`. -/
def Config.text (f : Config) (args : List CString) : List Byte :=
  when args (ascii "incdir".toList) (directory args (ascii "-I".toList) f.incdir) ++
  when args (ascii "dlibdir".toList) (directory args (ascii "-L".toList) f.dlibdir) ++
  when args (ascii "slibdir".toList) (directory args (ascii "-L".toList) f.slibdir) ++
  when args (ascii "ldflags".toList) (ascii "-llua-load ".toList) ++
  when args (ascii "version".toList) (f.version.kept ++ ascii " ".toList) ++
  when args (ascii "newline".toList) (ascii "\n".toList)

def Config.expected (f : Config) (flushed : List Byte → Bool) (args : List CString) : Result :=
  if args = [] then ⟨usageText, 111⟩
  else if Given args (ascii "help".toList) then ⟨helpText, 0⟩
  else ⟨f.text args, if flushed (f.text args) then 0 else 112⟩

/-! ### The rows of the table -/

/-- What the row prints, if it returns. -/
def rowText (c : LoadConf.Ctxt) (compile : Bool) (e : Flag) : List Byte :=
  match e.func with
  | some .flagIncdir => (if compile then ascii "-I".toList else []) ++ c.incdir ++ ascii " ".toList
  | some .flagDlibdir =>
    (if compile then ascii "-L".toList else []) ++ c.dlibdir ++ ascii " ".toList
  | some .flagSlibdir =>
    (if compile then ascii "-L".toList else []) ++ c.slibdir ++ ascii " ".toList
  | some .flagLdflags => ascii "-llua-load ".toList
  | some .flagVersion => c.version ++ ascii " ".toList
  | some .flagNewline => ascii "\n".toList
  | _ => []

theorem callRow_text (c : LoadConf.Ctxt) {e : Flag} (he : e.func ≠ some .flagHelp) (s : State) :
    callRow c e s = .ok (s.print (rowText c (compiling s) e)) := by
  have hlib (dir : List Byte) : LoadConf.flagLibdir dir s =
      s.print ((if compiling s then ascii "-L".toList else []) ++ dir ++ ascii " ".toList) := by
    unfold LoadConf.flagLibdir
    split_ifs <;> simp [State.print, State.printWord]
  have hnothing : s.print [] = s := by simp [State.print]
  cases hfunc : e.func with
  | none => simp [callRow, rowText, hfunc, hnothing]
  | some func =>
    simp only [callRow, rowText, hfunc]
    cases func with
    | flagHelp => exact absurd hfunc he
    | flagIncdir =>
      rw [LoadConf.callFunc, LoadConf.flagIncdir]
      split_ifs <;> rfl
    | flagCflags => exact congrArg Except.ok hnothing.symm
    | flagDlibdir => exact congrArg Except.ok (hlib c.dlibdir)
    | flagSlibdir => exact congrArg Except.ok (hlib c.slibdir)
    | flagLdflags => rfl
    | flagVersion => rfl
    | flagNewline => rfl

/-- Rows that return print their texts one after another: what was printed does not change what
follows. -/
theorem callRows_text (c : LoadConf.Ctxt) {es : List Flag}
    (hes : ∀ e ∈ es, e.func ≠ some .flagHelp) (s : State) :
    es.foldlM (fun s e => callRow c e s) s =
      (.ok (s.print (es.flatMap (rowText c (compiling s)))) : Except Stop State) := by
  induction es generalizing s with
  | nil => simp [State.print, pure, Except.pure]
  | cons e es ih =>
    have hflag : compiling (s.print (rowText c (compiling s) e)) = compiling s := rfl
    rw [List.foldlM_cons, callRow_text c (hes e List.mem_cons_self)]
    change es.foldlM (fun s e => callRow c e s) (s.print (rowText c (compiling s) e)) = _
    rw [ih fun e he => hes e (List.mem_cons_of_mem _ he), hflag]
    simp [State.print]

theorem mem_iff_given (args : List CString) (w : CString) : w ∈ args ↔ Given args w.bytes := by
  constructor
  · exact fun hmem => ⟨w, hmem, rfl⟩
  · rintro ⟨arg, hmem, hbytes⟩
    rwa [← CString.ext hbytes]

/-- The texts of the rows whose words are given. -/
theorem flatMap_given (args : List CString) (text : Flag → List Byte) (es : List Flag) :
    (es.filter fun e => e.flag ∈ args).flatMap text =
      es.flatMap fun e => when args e.flag.bytes (text e) := by
  induction es with
  | nil => rfl
  | cons e es ih =>
    by_cases he : e.flag ∈ args
    · rw [List.filter_cons_of_pos (by simpa using he), List.flatMap_cons, List.flatMap_cons, ih,
        when, if_pos ((mem_iff_given args _).mp he)]
    · rw [List.filter_cons_of_neg (by simpa using he), List.flatMap_cons, ih, when,
        if_neg (mt (mem_iff_given args _).mpr he), List.nil_append]

/-! ### The whole program -/

/-- The text of the rows for the words that are given, in the order of the table. -/
theorem rows_text (f : Config) (signed built : Bool) {args : List CString} {compile : Bool}
    (hcompile : compile = true ↔ Given args (ascii "compile".toList)) :
    (flags.filter fun e => e.flag ∈ args).flatMap (rowText (f.ctxt signed built) compile) =
      f.text args := by
  have hoption (option : List Byte) : (if compile then option else []) =
      when args (ascii "compile".toList) option := if_congr hcompile rfl rfl
  have hempty (word : List Byte) : when args word [] = [] := ite_self _
  rw [flatMap_given]
  -- with the default, the equations of `++` are checked by evaluating the texts
  simp -implicitDefEqProofs only [flags, List.flatMap_cons, List.flatMap_nil, rowText, hoption,
    hempty, Config.ctxt, OneLine.embedded_eq, Config.text, directory, List.nil_append,
    List.append_nil, List.append_assoc]

/-- The row of `help` is the first, and ends the program. -/
theorem flags_help : ∃ e es, flags = e :: es ∧ e.flag.bytes = ascii "help".toList ∧
    e.func = some .flagHelp ∧ ∀ e' ∈ es, e'.func ≠ some .flagHelp :=
  ⟨_, _, rfl, rfl, rfl, by decide⟩

theorem printHelp_out (es : List Flag) (s : State) :
    (es.foldl (fun s e => s.print (LoadConf.helpLine e)) s).out =
      s.out ++ es.flatMap LoadConf.helpLine := by
  induction es generalizing s with
  | nil => simp
  | cons e es ih =>
    rw [List.foldl_cons, ih, List.flatMap_cons, ← List.append_assoc]
    rfl

theorem callRow_help (c : LoadConf.Ctxt) {e : Flag} (he : e.func = some .flagHelp)
    (w : LoadConf.Word) : callRow c e ⟨w, []⟩ = .error (.exit ⟨helpText, 0⟩) := by
  simp only [callRow, he, LoadConf.callFunc, LoadConf.help, printHelp_out]
  rfl

theorem compiling_iff {args : List CString} {w : LoadConf.Word}
    (hbits : ∀ k, w.getLsbD k = true ↔ LoadConf.Sets args k) (out : List Byte) :
    compiling ⟨w, out⟩ = true ↔ Given args (ascii "compile".toList) := by
  obtain ⟨e, he, hval, hbytes⟩ : ∃ e ∈ flags, e.val = LoadConf.flagCompileBit ∧
      e.flag.bytes = ascii "compile".toList := ⟨_, .tail _ (.head _), rfl, rfl⟩
  rw [compiling, decide_eq_true_iff, ← hval, given_iff hbits he, mem_iff_given, hbytes]

section Main

variable {c : LoadConf.Ctxt} {flushed : List Byte → Bool} {argv : List CString} {s : State}

theorem main_of_returns {s' : State} (hparse : LoadConf.parseFlags argv ⟨0, []⟩ = .ok s)
    (hcall : callFlags c s = .ok s') :
    LoadConf.main c flushed argv = some ⟨s'.out, if flushed s'.out then 0 else 112⟩ := by
  have hrun : (LoadConf.parseFlags argv ⟨0, []⟩ >>= callFlags c) = .ok s' := by
    rw [hparse]
    exact hcall
  rw [LoadConf.main, hrun]

theorem main_of_exits {r : Result} (hparse : LoadConf.parseFlags argv ⟨0, []⟩ = .ok s)
    (hcall : callFlags c s = .error (.exit r)) : LoadConf.main c flushed argv = some r := by
  have hrun : (LoadConf.parseFlags argv ⟨0, []⟩ >>= callFlags c) = .error (.exit r) := by
    rw [hparse]
    exact hcall
  rw [LoadConf.main, hrun]

end Main

/-- **The configuration is printed**: whatever the words, the program prints the lines of the files
that were embedded, each where its word is given. -/
theorem configured (f : Config) (signed built : Bool) (flushed : List Byte → Bool) (prog : CString)
    (args : List CString) :
    LoadConf.main (f.ctxt signed built) flushed (prog :: args) = some (f.expected flushed args) := by
  by_cases hargs : args = []
  · subst hargs
    rfl
  obtain ⟨⟨w, out⟩, hparse, hout, hbits⟩ := parseFlags_sets prog hargs ⟨0, []⟩
  obtain rfl : out = [] := hout
  have hcall := callFrom_given (f.ctxt signed built) (List.Subset.refl flags) hbits
  obtain ⟨row, rows, hflags, hbytes, hfunc, hrows⟩ := flags_help
  rw [Config.expected, if_neg hargs]
  by_cases hhelp : Given args (ascii "help".toList)
  · have hrow : row.flag ∈ args := (mem_iff_given args _).mpr (hbytes ▸ hhelp)
    rw [if_pos hhelp]
    refine main_of_exits hparse (hcall.trans ?_)
    rw [hflags, List.filter_cons_of_pos (by simpa using hrow), List.foldlM_cons,
      callRow_help _ hfunc]
    rfl
  · have hothers : ∀ e ∈ flags.filter fun e => e.flag ∈ args, e.func ≠ some .flagHelp := by
      intro e he
      obtain ⟨hmem, hgiven⟩ := List.mem_filter.mp he
      rcases List.mem_cons.mp (hflags ▸ hmem) with rfl | hmem
      · have hrow : e.flag ∈ args := by simpa using hgiven
        exact absurd (hbytes ▸ (mem_iff_given args _).mp hrow) hhelp
      · exact hrows e hmem
    have htext := rows_text f signed built (compiling_iff hbits [])
    rw [if_neg hhelp, ← htext]
    exact main_of_returns hparse (hcall.trans (callRows_text _ hothers _))

/-- Three directories, and a version whose newline `read` delivers by itself. -/
def paths : Config where
  version := ⟨ascii "1.0".toList, [ascii "1.0".toList, [newline]], by decide, by decide, rfl⟩
  incdir := .ofShort (ascii "/include".toList) (by decide) (by decide)
  dlibdir := .ofShort (ascii "/lib".toList) (by decide) (by decide)
  slibdir := .ofShort (ascii "/lib".toList) (by decide) (by decide)

theorem configured_paths :
    LoadConf.main (paths.ctxt true true) (fun _ => true)
        [⟨ascii "conf".toList, by decide⟩, ⟨ascii "version".toList, by decide⟩,
          ⟨ascii "incdir".toList, by decide⟩, ⟨ascii "compile".toList, by decide⟩] =
      some ⟨ascii "-I/include 1.0\n ".toList, 0⟩ :=
  (configured paths true true (fun _ => true) ⟨ascii "conf".toList, by decide⟩
    [⟨ascii "version".toList, by decide⟩, ⟨ascii "incdir".toList, by decide⟩,
      ⟨ascii "compile".toList, by decide⟩]).trans (by decide)

end LuaAdaLoad.Build.Configured
