import LuaAdaLoad.Install.Translation

/-!
# Operators

What the installer, the checker and the deinstaller do with an item whose names are translated, and
the three tables that pair every operation with its translator and its operator.
-/

namespace LuaAdaLoad.Install.Operators

open LuaAdaLoad.Control.Actions LuaAdaLoad.System.Paths LuaAdaLoad.System.FileSystem
open LuaAdaLoad.Install.Posix LuaAdaLoad.Install.Translation

/-! ### Users -/

/-- `install_uid_lookup`; the current user where no name is given. -/
def uidLookup (user : Option CString) : Proc (Option ℕ) := do
  let host ← ask
  pure (user.elim (some host.uid) host.users)

/-- `install_gid_lookup`. -/
def gidLookup (group : Option CString) : Proc (Option ℕ) := do
  let host ← ask
  pure (group.elim (some host.gid) host.groups)

/-- `install_uidgid_lookup`. -/
def uidgidLookup (user group : Option CString) : Proc (ℕ × ℕ) := do
  let some uid ← uidLookup user | fail .error "could not lookup user id"
  let some gid ← gidLookup group | fail .error "could not lookup group id"
  pure (uid, gid)

/-! ### Copying a file -/

/-- The inner loop of `install_file_copy`: write a buffer out. `false` is a write error. -/
def writeOut (out : Option ℕ) : ℕ → CString → Proc Bool
  | 0, _ => unfinished
  | k + 1, buf => do
    if buf = [] then
      pure true
    else
      let w ← fwrite buf out
      if w = 0 then
        if ← feof out then pure true
        else if ← ferror out then pure false
        else writeOut out k buf
      else writeOut out k (buf.drop w)

/-- The outer loop of `install_file_copy`: the message of its error, if it has one. -/
def copyLoop (inp out : Option ℕ) : ℕ → Proc (Option String)
  | 0 => unfinished
  | k + 1 => do
    let buf ← fread 65536 inp
    if buf = [] ∧ (← feof inp) = true then
      pure none
    else if buf = [] ∧ (← ferror inp) = true then
      pure (some "read error")
    else if ← bounded fun n => writeOut out n buf then
      copyLoop inp out k
    else
      pure (some "write error")

/-- The label `ERR` of `install_file_copy`: both streams are closed, whatever has become of them. -/
def copyFailed (fdSrc fdDst : Option ℕ) (dstTmp : CString) (message : String) : Proc Unit := do
  let _ ← fclose fdDst
  let _ ← fclose fdSrc
  let _ ← unlink dstTmp
  fail .error message

/-- What `install_file_copy` does when all is written: the temporary file gets its mode and its
owners and then the name of the destination. -/
def copyWritten (fdSrc fdDst : Option ℕ) (dstTmp dst : CString) (uid gid mode : ℕ) :
    Proc Unit := do
  let err := copyFailed fdSrc fdDst dstTmp
  if !(← fflush fdDst) then err "write error"
  else if !(← chmod dstTmp mode) then err "could not set file permissions"
  else if !(← chown dstTmp uid gid) then err "could not set file ownership"
  else if !(← fclose fdDst) then err "could not close destination file"
  else if !(← fclose fdSrc) then err "could not close source file"
  else if !(← rename dstTmp dst) then err "could not rename temporary file"
  else pure ()

/-- `install_file_copy`. -/
def fileCopy (src dst : CString) (uid gid mode : ℕ) : Proc Unit := do
  doing (.copy dst)
  let some dstTmp := snprintf maxPathLen (dst ++ ".tmp".toList)
    | fail .error "could not format string"
  let fdSrc ← fopenRead src
  if fdSrc.isNone then
    fail .error "could not open source file"
  else
    let fdDst ← fopenWrite dstTmp
    if fdDst.isNone then
      copyFailed fdSrc fdDst dstTmp "could not open destination file"
    else
      match ← bounded (copyLoop fdSrc fdDst) with
      | some message => copyFailed fdSrc fdDst dstTmp message
      | none => copyWritten fdSrc fdDst dstTmp dst uid gid mode

/-! ### Checking a file -/

/-- `enum install_file_type_t`. -/
inductive FileType where
  | file
  | characterSpecial
  | directory
  | symlink
  | socket
  | fifo
deriving DecidableEq

/-- The type of a kind of file; the table of types has no entry for block devices. -/
def typeOf : Kind → Option FileType
  | .regular _ => some .file
  | .characterSpecial => some .characterSpecial
  | .directory => some .directory
  | .symlink _ => some .symlink
  | .socket => some .socket
  | .fifo => some .fifo
  | .blockSpecial => none

/-- `install_file_type_name_lookup`. -/
def typeName : FileType → String
  | .file => "file"
  | .characterSpecial => "character_special"
  | .directory => "directory"
  | .symlink => "symlink"
  | .socket => "socket"
  | .fifo => "fifo"

/-- `install_file_type`. -/
def fileType (file : CString) (nofollow : Bool) : Proc (Option FileType) := do
  let sb ← if nofollow then lstat file else stat file
  pure (sb.bind fun x => typeOf x.kind)

/-- `st_size`. -/
def sizeOf (host : Host) : Kind → ℕ
  | .regular content => content.length
  | .symlink target => target.length
  | kind => host.specialSize kind

/-- `install_file_size`. -/
def fileSize (file : CString) : Proc (Option ℕ) := do
  let host ← ask
  pure ((← stat file).map fun x => sizeOf host x.kind)

/-- `iposix_file_get_mode`: the bits in `0755`. -/
def fileMode (file : CString) : Proc (Option ℕ) := do
  pure ((← stat file).map fun x => x.mode &&& 493)

/-- `install_file_get_ownership`. -/
def fileOwnership (file : CString) : Proc (Option (ℕ × ℕ)) := do
  pure ((← stat file).map fun x => (x.uid, x.gid))

/-- `have_symlinks`, on POSIX. -/
def haveSymlinks : Bool := true

/-- The decimal image of a number. -/
def decimal (n : ℕ) : String := String.ofList (Nat.toDigits 10 n)

/-- The octal image of a number. -/
def octal (n : ℕ) : String := String.ofList (Nat.toDigits 8 n)

/-- `if (!condition) ...`: an error where something is not as wanted. -/
def wanted (condition : Bool) (message : String) : Proc Unit :=
  if condition then pure () else fail .error message

/-- The size of the source of a file. -/
def sizeWanted (src : CString) (type : FileType) : Proc (Option ℕ) :=
  if type = .file then fileSize src else pure none

/-- The sizes of files are compared. -/
def sizeCheck (sizeWant : Option ℕ) (type : FileType) (dst : CString) : Proc Unit := do
  if type = .file then
    let some sizeGot ← fileSize dst | fail .error "could not determine destination file size"
    wanted (sizeWant.getD 0 = sizeGot)
      ("size " ++ decimal sizeGot ++ " not " ++ decimal (sizeWant.getD 0))

/-- `install_file_check`. -/
def fileCheck (src : CString) (mode : ℕ) (type : FileType) (uid gid : ℕ) (dst : CString) :
    Proc Unit := do
  doing (.check dst)
  modify fun s => { s with errno := none }
  let sizeWant ← sizeWanted src type
  let some typeGot ← fileType dst (type = .symlink)
    | fail .error "could not determine destination file type"
  wanted (haveSymlinks || type = .symlink || type = typeGot)
    ("filetype " ++ typeName typeGot ++ " not " ++ typeName type)
  sizeCheck sizeWant type dst
  let some modeGot ← fileMode dst | fail .error "could not determine destination file mode"
  wanted (modeGot = mode) ("mode " ++ octal modeGot ++ " not " ++ octal mode)
  let some (uidGot, gidGot) ← fileOwnership dst
    | fail .error "could not determine destination file ownership"
  wanted (uid = uidGot) ("uid " ++ decimal uidGot ++ " not " ++ decimal uid)
  wanted (gid = gidGot) ("gid " ++ decimal gidGot ++ " not " ++ decimal gid)

/-! ### Making directories -/

/-- `iposix_mkdir`: 1 where `mkdir` succeeded, and 0 otherwise. -/
def installMkdir (dir : CString) (mode : ℕ) : Proc ℤ := do
  let before ← get
  let made ← mkdir dir mode
  let after ← get
  note (.mkdir dir before (if made then none else after.errno))
  pure (if made then 1 else 0)

/-- The loop of `install_rmkdir`: `buf` is the part of `path_buf` in use, `rest` is what `ptr` points
to. Every round uses up a part of the path. -/
def rmkdirLoop (perm : ℕ) : ℕ → CString → CString → Proc Bool
  | 0, _, _ => unfinished
  | k + 1, buf, rest => do
    if rest = [] then
      pure true
    else
      let pos := rest.idxOf '/'
      let atEnd := decide (pos = rest.length)
      if maxPathLen - buf.length ≤ pos + 1 then
        pure true
      else
        let buf := buf ++ rest.take pos ++ ['/']
        let failed := decide ((← installMkdir buf perm) = -1)
        let errno := (← get).errno
        if failed && (atEnd || errno ≠ some .exists && errno ≠ some .isDirectory) then
          pure false
        else
          rmkdirLoop perm k buf (rest.drop (pos + 1))

/-- `install_rmkdir`. -/
def installRmkdir (dir : CString) (perm : ℕ) : Proc Bool := do
  doing (.make dir)
  if maxPathLen ≤ dir.length then
    modify fun s => { s with errno := some .nameTooLong }
    pure false
  else
    rmkdirLoop perm (dir.length + 1) [] dir

/-! ### Install operator callbacks -/

def instCopy (ins : InstallItem Ptr) (dryrun : Bool) : Proc Unit := do
  let (uid, gid) ← uidgidLookup ins.owner ins.group
  let src ← deref ins.src
  let dst ← deref ins.dst
  let _ ← fileSize src
  if !dryrun then
    fileCopy src dst uid gid ins.perm

/-- Go back to the directory that `inst_link` came from. -/
def restoreCwd (cwd : CString) : Proc Unit := do
  let back ← chdir cwd
  if !back then
    fail .fatal "could not restore current working directory"

def instLink (ins : InstallItem Ptr) (dryrun : Bool) : Proc Unit := do
  let some cwd ← getcwd maxPathLen | fail .error "could not get current working directory"
  let changed ← chdir (← deref ins.dir)
  if !changed then
    fail .error "could not change directory"
  else if dryrun then
    restoreCwd cwd
  else
    let src ← deref ins.src
    let dst ← deref ins.dst
    doing (.link dst)
    let linked ← symlink src dst
    restoreCwd cwd
    if !linked then
      fail .error "could not make symbolic link"

def instMkdir (ins : InstallItem Ptr) (dryrun : Bool) : Proc Unit := do
  let (uid, gid) ← uidgidLookup ins.owner ins.group
  let dir ← deref ins.dir
  if !dryrun then
    let made ← installRmkdir dir ins.perm
    if !made then
      fail .error "could not create directory"
    else
      let owned ← chown dir uid gid
      if !owned then
        fail .error "could not set ownership on directory"

def instLiblink (ins : InstallItem Ptr) (dryrun : Bool) : Proc Unit := instLink ins dryrun

/-! ### Instchk operator callbacks -/

/-- The three checks: they count a file that is not as it should be. -/
def countedCheck (ins : InstallItem Ptr) (src dst : Option Ptr) (type : FileType) :
    Proc Unit := do
  let (uid, gid) ← uidgidLookup ins.owner ins.group
  let src ← deref src
  let dst ← deref dst
  attempt (fileCheck src ins.perm type uid gid dst) fun failure => do
    modify fun s => { s with failed := s.failed + 1 }
    raise failure

def instchkCopy (ins : InstallItem Ptr) (_ : Bool) : Proc Unit :=
  countedCheck ins ins.src ins.dst .file

def instchkLink (ins : InstallItem Ptr) (_ : Bool) : Proc Unit :=
  countedCheck ins ins.src ins.dst .symlink

def instchkMkdir (ins : InstallItem Ptr) (_ : Bool) : Proc Unit :=
  countedCheck ins ins.dir ins.dir .directory

def instchkLiblink (ins : InstallItem Ptr) (dryrun : Bool) : Proc Unit := instchkLink ins dryrun

/-! ### Deinstall operator callbacks -/

def deinstCopy (ins : InstallItem Ptr) (dryrun : Bool) : Proc Unit := do
  let dst ← deref ins.dst
  if !dryrun then
    doing (.unlink dst)
    let gone ← unlink dst
    if !gone then
      fail .error "could not unlink file"

def deinstLink (ins : InstallItem Ptr) (dryrun : Bool) : Proc Unit := do
  let dir ← deref ins.dir
  let dst ← deref ins.dst
  if !dryrun then
    let some path := snprintf maxPathLen (joined dir dst) | fail .error "could not format string"
    doing (.unlink path)
    let gone ← unlink path
    if !gone then
      fail .error "could not unlink"

def deinstMkdir (ins : InstallItem Ptr) (dryrun : Bool) : Proc Unit := do
  let dir ← deref ins.dir
  if !dryrun then
    doing (.rmdir dir)
    let gone ← rmdir dir
    if !gone then
      fail .error "could not remove directory"

def deinstLiblink (ins : InstallItem Ptr) (dryrun : Bool) : Proc Unit := deinstLink ins dryrun

/-! ### Operator callback tables -/

/-- `struct instop`. -/
structure InstOper where
  oper : InstallItem Ptr → Bool → Proc Unit
  trans : InstallItem Ptr → Proc (InstallItem Ptr)

def installOpers : InstOp → InstOper
  | .copy => ⟨instCopy, ntranCopy⟩
  | .copyExec => ⟨instCopy, ntranCopyExec⟩
  | .symlink => ⟨instLink, ntranLink⟩
  | .mkdir => ⟨instMkdir, ntranMkdir⟩
  | .liblink => ⟨instLiblink, ntranLiblink⟩

def instchkOpers : InstOp → InstOper
  | .copy => ⟨instchkCopy, ntranCopy⟩
  | .copyExec => ⟨instchkCopy, ntranCopyExec⟩
  | .symlink => ⟨instchkLink, ntranChkLink⟩
  | .mkdir => ⟨instchkMkdir, ntranMkdir⟩
  | .liblink => ⟨instchkLiblink, ntranChkLiblink⟩

def deinstOpers : InstOp → InstOper
  | .copy => ⟨deinstCopy, ntranCopy⟩
  | .copyExec => ⟨deinstCopy, ntranCopyExec⟩
  | .symlink => ⟨deinstLink, ntranLink⟩
  | .mkdir => ⟨deinstMkdir, ntranMkdir⟩
  | .liblink => ⟨deinstLiblink, ntranLiblink⟩

/-! ### Interface -/

/-- Process an item with a table of operators. -/
def processed (opers : InstOp → InstOper) (ins : InstallItem Ptr) (dryrun : Bool) :
    Proc Unit := do
  let ins ← (opers ins.op).trans ins
  (opers ins.op).oper ins dryrun

def install (ins : InstallItem Ptr) (dryrun : Bool) : Proc Unit :=
  processed installOpers ins dryrun

def installCheck (ins : InstallItem Ptr) : Proc Unit := processed instchkOpers ins false

def deinstall (ins : InstallItem Ptr) (dryrun : Bool) : Proc Unit :=
  processed deinstOpers ins dryrun

end LuaAdaLoad.Install.Operators
