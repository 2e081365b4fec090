import LuaAdaLoad.Install.Operators

/-!
# The three programs

The main programs of the installer, the checker and the deinstaller: they read the suffix of
libraries from a file and go through the table `insthier`, the deinstaller from its end. An item that
ends with `INSTALL_STATUS_FATAL` ends the program. The result of a program is its exit status.
-/

namespace LuaAdaLoad.Install.Programs

open LuaAdaLoad.Control.Actions LuaAdaLoad.System.Paths LuaAdaLoad.Install.Posix
open LuaAdaLoad.Install.Operators

/-! ### Initialisation -/

/-- The characters that `install_suffix_sanitize` leaves. -/
def isSuffixChar (c : Char) : Bool :=
  c = '.' || ('0' ≤ c && c ≤ '9') || ('A' ≤ c && c ≤ 'Z') || ('a' ≤ c && c ≤ 'z')

/-- `install_suffix_sanitize`. -/
def suffixSanitize (buffer : CString) : CString := buffer.takeWhile isSuffixChar

/-- `install_init`. -/
def installInit (suffixFile : String) : Proc Unit := do
  let fp ← fopenRead suffixFile.toList
  if fp.isNone then
    fail .error ("could not open " ++ suffixFile)
  else
    modify fun s => { s with execSuffix := [], dlibSuffix := ['.'] }
    let suffix ← fread 14 fp
    if suffix = [] then
      let failed ← ferror fp
      let ended ← feof fp
      let _ ← fclose fp
      if ended then fail .error (suffixFile ++ " is empty")
      else if failed then fail .error ("error reading " ++ suffixFile)
      else fail .fatal ""
    else
      modify fun s => { s with dlibSuffix := suffixSanitize ('.' :: suffix) }
      let closed ← fclose fp
      if !closed then
        fail .error ("could not close " ++ suffixFile)
      else
        modify fun s => { s with execSuffix := [] }

/-! ### The table -/

/-- The status with which a function returns. -/
def statusOf (x : Proc Unit) : Proc Status :=
  attempt (do
    x
    pure .ok) fun failure => pure failure.status

/-- Process one item of the table; `false` is `exit (112)`. -/
def processItem (process : InstallItem Ptr → Proc Unit) (item : InstallItem CString) :
    Proc Bool := do
  note (.started item (← get))
  let status ← statusOf (process (Translation.loaded item))
  note (.finished item status (← get))
  pure (status ≠ .fatal)

/-- Process the items of the table; `false` is `exit (112)`. -/
def eachItem (process : InstallItem Ptr → Proc Unit) : List (InstallItem CString) → Proc Bool
  | [] => pure true
  | item :: items => do
    if ← processItem process item then
      eachItem process items
    else
      pure false

/-- `install_init ("conf-sosuffix")` and, if it succeeds, the rest of the program. -/
def afterInit (rest : Proc ℕ) : Proc ℕ := do
  let status ← statusOf (installInit "conf-sosuffix")
  if status = .ok then rest else pure 112

/-! ### Main programs -/

/-- `main` of `installer`. -/
def installer (insthier : List (InstallItem CString)) (dryrun : Bool) : Proc ℕ := afterInit do
  if ← eachItem (fun ins => install ins dryrun) insthier then pure 0 else pure 112

/-- `main` of `deinstaller`. The last item of an empty table is an error of the program. -/
def deinstaller (insthier : List (InstallItem CString)) (dryrun : Bool) : Proc ℕ := afterInit do
  if insthier = [] then
    abort
  else if ← eachItem (fun ins => deinstall ins dryrun) insthier.reverse then
    pure 0
  else
    pure 112

/-- `main` of `instchk`. -/
def instchk (insthier : List (InstallItem CString)) : Proc ℕ := afterInit do
  if ← eachItem installCheck insthier then
    let failed := (← get).failed
    if failed ≠ 0 then
      note (.reported failed insthier.length)
      pure 1
    else
      pure 0
  else
    pure 112

end LuaAdaLoad.Install.Programs
