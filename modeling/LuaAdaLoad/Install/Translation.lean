import LuaAdaLoad.Install.Posix

/-!
# Name translation

Before an item is processed its names are translated: base names are taken, suffixes added, library
names read from files, directories put in front. A translator leaves its results in static buffers
and makes the item point to them.
-/

namespace LuaAdaLoad.Install.Translation

open LuaAdaLoad.Control.Actions LuaAdaLoad.System.Paths LuaAdaLoad.Install.Posix

/-- `INSTALL_MAX_PATHLEN`. -/
def maxPathLen : ℕ := 1024

/-- `snprintf` into a buffer of a size, of a text already put together: it is cut to the buffer, and
refused where its length is no `int`. -/
def snprintf (size : ℕ) (text : CString) : Option CString :=
  if text.length < 2 ^ 31 then some (text.take (size - 1)) else none

/-! ### Portability functions -/

/-- `while ((t > s) && (t [0] == '/')) --t`. -/
def skipSlashes (dir : CString) : ℕ → ℕ
  | 0 => 0
  | t + 1 => if dir[t + 1]? = some '/' then skipSlashes dir t else t + 1

/-- `while ((u > s) && (*(u - 1) != '/')) --u`. -/
def blockStart (dir : CString) : ℕ → ℕ
  | 0 => 0
  | u + 1 => if dir[u]? = some '/' then u + 1 else blockStart dir u

/-- What `base_name` writes into its buffer; the length is an `unsigned int`. -/
def baseNameOf (dir : CString) : Option CString :=
  let len := dir.length % 2 ^ 32
  if len = 0 then some ['.']
  else if maxPathLen ≤ len then none
  else
    let t := skipSlashes dir (len - 1)
    if t = 0 ∧ dir[t]? = some '/' then some ['/']
    else
      let u := blockStart dir t
      some ((dir.drop u).take (t - u + 1))

/-- `base_name`. -/
def baseName (dir : Ptr) : Proc (Option Ptr) := do
  match baseNameOf (← load dir) with
  | none => pure none
  | some base =>
    store .baseNamePathBuf base
    pure (some (.static .baseNamePathBuf))

/-- `str_ends`. -/
def strEnds (s ending : CString) : Bool :=
  let elen := if s.length < ending.length then s.length else ending.length
  s.drop (s.length - elen) = ending

/-! ### Utilities -/

def isBlank (c : Char) : Bool := c = ' ' || c = '\t' || c = '\n' || c = '\r'

/-- `while (r)` in `libname`: `r` bytes are left and `s` is the index of the next one. The result is
the number of bytes before the first blank. -/
def scanWord (readBuf : CString) : ℕ → ℕ → ℕ
  | 0, s => s
  | r + 1, s => if isBlank (readBuf.getD s '\x00') then s else scanWord readBuf r (s + 1)

/-- `s - read_buf` behind the loop, for what `fread` read. -/
def wordLength (bytes : CString) : ℕ := scanWord bytes bytes.length 0

/-- What is written to `buf`: `memcpy (buf, read_buf, s - read_buf)` and `buf [s - read_buf] = 0`. -/
def bufWrites (bytes : CString) : List (ℕ × Char) :=
  (List.range (wordLength bytes)).map (fun i => (i, bytes.getD i '\x00')) ++
    [(wordLength bytes, '\x00')]

/-- The indices of `read_buf` that are written: by `fread`, and by `s [0] = 0` at a blank. -/
def readBufWrites (bytes : CString) : List ℕ :=
  List.range bytes.length ++
    if wordLength bytes < bytes.length then [wordLength bytes] else []

/-- `libname`: the first word of a file. A write behind the end of `buf` is an error of the
program. -/
def libname (name : CString) (buf : Static) : Proc Bool := do
  let fp ← fopenRead name
  if fp.isNone then
    pure false
  else
    let bytes ← fread maxPathLen fp
    if bytes.length < maxPathLen ∧ (← ferror fp) = true then
      let _ ← fclose fp
      pure false
    else if ∀ w ∈ bufWrites bytes, w.1 < maxPathLen then
      store buf ((bytes.take (wordLength bytes)).takeWhile fun c => c ≠ '\x00')
      fclose fp
    else
      abort

/-- The name is that of a file with a library name in it. -/
def isLibrary (name : CString) : Bool := strEnds name ".vlb".toList

/-- `if (str_ends (name, ".vlb"))` in `ntran_copy`: the library name replaces the name. -/
def libraryName (name : Ptr) (buf : Static) : Proc Ptr := do
  if isLibrary (← load name) then
    if ← libname (← load name) buf then
      pure (.static buf)
    else
      fail .fatal "could not build library name"
  else
    pure name

/-- `if (str_ends (ins->src, ".vlb"))` in `ntran_liblink`: the base name of the library name replaces
the name. -/
def libraryBaseName (name : Ptr) : Proc Ptr := do
  if isLibrary (← load name) then
    if ← libname (← load name) .liblinkSrcTmp then
      let some base ← baseName (.static .liblinkSrcTmp) | fail .fatal "invalid source path"
      store .liblinkSrcName (← load base)
      pure (.static .liblinkSrcName)
    else
      fail .fatal "could not build library name"
  else
    pure name

/-! ### Name translation callbacks -/

def ntranCopy (ins : InstallItem Ptr) : Proc (InstallItem Ptr) := do
  let some src := ins.src | fail .fatal "source file undefined"
  let some dir := ins.dir | fail .fatal "directory undefined"
  let dst := ins.dst.getD src
  let src ← libraryName src .copySrcName
  let dst ← libraryName dst .copyDstName
  let some base ← baseName dst | fail .fatal "invalid destination path"
  let some path := snprintf maxPathLen (joined (← load dir) (← load base))
    | fail .error "could not format destination path"
  store .copyDstTmp path
  pure { ins with src := some src, dst := some (.static .copyDstTmp) }

def ntranCopyExec (ins : InstallItem Ptr) : Proc (InstallItem Ptr) := do
  let ins ← ntranCopy ins
  let suffix := (← get).execSuffix
  let some src := snprintf maxPathLen ((← deref ins.src) ++ suffix)
    | fail .error "could not format source path"
  store .execSrcName src
  let some dst := snprintf maxPathLen ((← deref ins.dst) ++ suffix)
    | fail .error "could not format destination path"
  store .execDstName dst
  pure { ins with src := some (.static .execSrcName), dst := some (.static .execDstName) }

def ntranLink (ins : InstallItem Ptr) : Proc (InstallItem Ptr) := do
  let some _ := ins.src | fail .fatal "source file undefined"
  let some _ := ins.dir | fail .fatal "directory undefined"
  let some _ := ins.dst | fail .fatal "destination file undefined"
  pure ins

def ntranLiblink (ins : InstallItem Ptr) : Proc (InstallItem Ptr) := do
  let some src := ins.src | fail .fatal "source file undefined"
  let some _ := ins.dir | fail .fatal "directory undefined"
  let some dst := ins.dst | fail .fatal "destination file undefined"
  let src ← libraryBaseName src
  let some base ← baseName dst | fail .fatal "invalid destination path"
  let some name := snprintf maxPathLen ((← load base) ++ (← get).dlibSuffix)
    | fail .error "could not format destination path"
  store .liblinkDstTmp name
  pure { ins with src := some src, dst := some (.static .liblinkDstTmp) }

def ntranMkdir (ins : InstallItem Ptr) : Proc (InstallItem Ptr) :=
  pure { ins with dst := ins.dst <|> ins.src }

/-- The two translators of the checker for links put the directory in front of the name. -/
def ntranInDir (ins : InstallItem Ptr) (buf : Static) : Proc (InstallItem Ptr) := do
  let some path := snprintf maxPathLen (joined (← deref ins.dir) (← deref ins.dst))
    | fail .error "could not format destination path"
  store buf path
  pure { ins with dst := some (.static buf) }

def ntranChkLink (ins : InstallItem Ptr) : Proc (InstallItem Ptr) := do
  ntranInDir (← ntranLink ins) .chkLinkDstName

def ntranChkLiblink (ins : InstallItem Ptr) : Proc (InstallItem Ptr) := do
  ntranInDir (← ntranLiblink ins) .chkLiblinkDstName

/-- An item of a table, before its translation. -/
def loaded (item : InstallItem CString) : InstallItem Ptr :=
  { op := item.op
    src := item.src.map .text
    dst := item.dst.map .text
    dir := item.dir.map .text
    owner := item.owner
    group := item.group
    perm := item.perm }

end LuaAdaLoad.Install.Translation
