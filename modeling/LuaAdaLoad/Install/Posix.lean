import LuaAdaLoad.Control.Weakest
import LuaAdaLoad.System.FileSystem

/-!
# The machine of the installer

The installer, the checker and the deinstaller run on a POSIX system: they change a file system,
read and write through streams, and keep strings in static buffers. The host says who the users are
and which system calls fail: the `k`th call of a run fails with `fault k`, and otherwise does what
the file system makes of it. A call that returns `NULL` or `-1` gives `none` here.

The log tells what was done to which path name, in which state (`Deed`), which streams were opened
and closed, how each directory was made, in which state the processing of each item started and how
it ended, and how many failures were reported.
-/

namespace LuaAdaLoad.Install.Posix

open LuaAdaLoad.Control.Actions LuaAdaLoad.System.Paths LuaAdaLoad.System.FileSystem

/-- `enum` in `install_status_t`. -/
inductive Status where
  | ok
  | error
  | fatal
deriving DecidableEq

/-- A status that is not `INSTALL_STATUS_OK`, with its message. -/
structure Failure where
  status : Status
  message : CString
deriving DecidableEq

/-- The operations of install items. -/
inductive InstOp where
  | copy
  | copyExec
  | symlink
  | mkdir
  | liblink
deriving DecidableEq

/-- `struct install_item`; in a table the names are strings, later they are pointers. -/
structure InstallItem (ρ : Type) where
  op : InstOp
  src : Option ρ
  dst : Option ρ
  dir : Option ρ
  owner : Option CString
  group : Option CString
  perm : ℕ
deriving DecidableEq

/-- The static buffers that install items can point to. -/
inductive Static where
  | copySrcName
  | copyDstName
  | copyDstTmp
  | execSrcName
  | execDstName
  | liblinkDstTmp
  | liblinkSrcName
  | liblinkSrcTmp
  | chkLinkDstName
  | chkLiblinkDstName
  | baseNamePathBuf
deriving DecidableEq

/-- Where an install item points to: a string of the table or a static buffer. -/
inductive Ptr where
  | text (s : CString)
  | static (b : Static)
deriving DecidableEq

/-- A `FILE`. -/
structure Stream where
  place : Place
  pos : ℕ
  eof : Bool
  err : Bool

/-- The state that the programs change. -/
structure Machine where
  fs : FileSys
  cwd : Place
  calls : ℕ
  errno : Option Errno
  streams : ℕ → Option Stream
  statics : Static → CString
  execSuffix : CString
  dlibSuffix : CString
  failed : ℕ

/-- The state in which a program starts. -/
def Machine.initial (fs : FileSys) (cwd : Place) : Machine where
  fs := fs
  cwd := cwd
  calls := 0
  errno := none
  streams := fun _ => none
  statics := fun _ => []
  execSuffix := []
  dlibSuffix := []
  failed := 0

/-- The users, the process and the failures of its calls. `chunk k` limits what the `k`th call reads
or writes; `none` means that it moves all it can. `specialSize` is the size of files that hold no
text. -/
structure Host where
  users : CString → Option ℕ
  groups : CString → Option ℕ
  uid : ℕ
  gid : ℕ
  umask : ℕ
  specialSize : Kind → ℕ
  fault : ℕ → Option Errno
  chunk : ℕ → Option ℕ

/-- No call fails without a reason, and each moves all it can. -/
structure Host.Sound (host : Host) : Prop where
  fault : ∀ k, host.fault k = none
  chunk : ∀ k, host.chunk k = none

/-- A host on which nothing fails; it knows nobody but the user of the process. -/
def Host.quiet : Host where
  users := fun _ => none
  groups := fun _ => none
  uid := 0
  gid := 0
  umask := 18
  specialSize := fun _ => 0
  fault := fun _ => none
  chunk := fun _ => none

theorem sound_quiet : Host.quiet.Sound := ⟨fun _ => rfl, fun _ => rfl⟩

/-- What the programs do to the files of an item. -/
inductive Deed where
  | copy (dst : CString)
  | link (dst : CString)
  | make (dir : CString)
  | check (dst : CString)
  | unlink (path : CString)
  | rmdir (path : CString)
deriving DecidableEq

inductive Event where
  | deed (d : Deed) (s : Machine)
  | opened (stream : ℕ)
  | closed (stream : ℕ)
  | mkdir (path : CString) (s : Machine) (failure : Option Errno)
  | started (item : InstallItem CString) (s : Machine)
  | finished (item : InstallItem CString) (status : Status) (s : Machine)
  | reported (failed total : ℕ)

/-- The functions of the programs; a status other than OK is an exception. -/
abbrev Proc := Act Host Failure Machine Event

/-- Return with a status other than OK. -/
def fail {α : Type} (status : Status) (message : String) : Proc α :=
  raise ⟨status, message.toList⟩

/-- Say what is about to be done. -/
def doing (d : Deed) : Proc Unit := do note (.deed d (← get))

/-- Run a loop with the bound of the run. -/
def bounded {α : Type} (x : ℕ → Proc α) : Proc α := fun host n s => x n host n s

/-- The bound of a loop is used up. -/
def unfinished {α : Type} : Proc α := fun _ _ _ => ⟨[], .unfinished⟩

/-! ### System calls -/

/-- The state after a call with that effect. -/
def Machine.afterCall (s : Machine) (e : Option Errno) : Machine :=
  { s with calls := s.calls + 1, errno := if e = none then s.errno else e }

/-- A call that looks at the machine. -/
def query {α : Type} (f : Machine → Except Errno α) : Proc (Option α) := step fun host s =>
  match host.fault s.calls with
  | some e => (none, s.afterCall (some e))
  | none => match f s with
    | .error e => (none, s.afterCall (some e))
    | .ok a => (some a, s.afterCall none)

/-- A call that changes the file system; `false` is a return of `-1`. -/
def change (f : Host → Machine → Except Errno FileSys) : Proc Bool := step fun host s =>
  match host.fault s.calls with
  | some e => (false, s.afterCall (some e))
  | none => match f host s with
    | .error e => (false, s.afterCall (some e))
    | .ok fs => (true, { s.afterCall none with fs := fs })

/-- The bits of a mode that the umask leaves, out of the bits in `all`. -/
def Host.masked (host : Host) (all mode : ℕ) : ℕ := mode &&& (all - host.umask % 512)

def mkdir (path : CString) (mode : ℕ) : Proc Bool :=
  change fun host s => s.fs.mkdir s.cwd path (host.masked 1023 mode) host.uid host.gid

def rmdir (path : CString) : Proc Bool := change fun _ s => s.fs.rmdir s.cwd path

def unlink (path : CString) : Proc Bool := change fun _ s => s.fs.unlink s.cwd path

def symlink (target path : CString) : Proc Bool :=
  change fun host s => s.fs.symlink s.cwd target path host.uid host.gid

def rename (old new : CString) : Proc Bool := change fun _ s => s.fs.rename s.cwd old new

def chown (path : CString) (uid gid : ℕ) : Proc Bool :=
  change fun _ s => s.fs.chown s.cwd path uid gid

def chmod (path : CString) (mode : ℕ) : Proc Bool :=
  change fun _ s => s.fs.chmod s.cwd path mode

def stat (path : CString) : Proc (Option Node) := query fun s => s.fs.stat s.cwd path

def lstat (path : CString) : Proc (Option Node) := query fun s => s.fs.lstat s.cwd path

/-- `getcwd` into a buffer of a size. -/
def getcwd (size : ℕ) : Proc (Option CString) := query fun s =>
  if ¬ IsDir (s.fs.node s.cwd) then .error .noEntry
  else if (absolutePath s.cwd).length < size then .ok (absolutePath s.cwd)
  else .error .range

/-- The directory that a path name leads to. -/
def Machine.directory (s : Machine) (path : CString) : Except Errno Place :=
  match s.fs.follow s.cwd path with
  | none => .error .noEntry
  | some p => if IsDir (s.fs.node p) then .ok p else .error .notDirectory

/-- `chdir`; `false` is a return of `-1`. -/
def chdir (path : CString) : Proc Bool := do
  match ← query fun s => s.directory path with
  | none => pure false
  | some p =>
    modify fun s => { s with cwd := p }
    pure true

/-! ### Streams -/

/-- A new stream on a file. -/
def openStream (p : Place) : Proc ℕ := do
  let s ← get
  modify fun s => { s with streams := Function.update s.streams s.calls (some ⟨p, 0, false, false⟩) }
  note (.opened s.calls)
  pure s.calls

/-- The file that a path name leads to. -/
def Machine.file (s : Machine) (path : CString) : Except Errno Place :=
  match s.fs.follow s.cwd path with
  | none => .error .noEntry
  | some p => .ok p

/-- `fopen (path, "rb")`. -/
def fopenRead (path : CString) : Proc (Option ℕ) := do
  match ← query fun s => s.file path with
  | none => pure none
  | some p => pure (some (← openStream p))

/-- `open` of a file for writing; the file is created or cut to nothing. -/
def create (path : CString) : Proc (Option Place) := step fun host s =>
  match host.fault s.calls with
  | some e => (none, s.afterCall (some e))
  | none => match s.fs.openWrite s.cwd path (host.masked 511 438) host.uid host.gid with
    | .error e => (none, s.afterCall (some e))
    | .ok (p, fs) => (some p, { s.afterCall none with fs := fs })

/-- `fopen (path, "wb")`. -/
def fopenWrite (path : CString) : Proc (Option ℕ) := do
  match ← create path with
  | none => pure none
  | some p => pure (some (← openStream p))

/-- Change an open stream; to use another one is an error of the program. -/
def withStream {α : Type} (stream : Option ℕ) (x : ℕ → Stream → Proc α) : Proc α := do
  match stream with
  | none => abort
  | some k => match (← get).streams k with
    | none => abort
    | some f => x k f

def setStream (k : ℕ) (f : Option Stream) : Proc Unit :=
  modify fun s => { s with streams := Function.update s.streams k f }

/-- The contents that a file has for its readers. -/
def contentOf : Option Node → Option CString
  | some ⟨.regular content, _, _, _⟩ => some content
  | _ => none

/-- How much a call moves of what it could move: something, if there is anything. -/
def Host.share (host : Host) (call available : ℕ) : ℕ :=
  match host.chunk call with
  | none => available
  | some k => min (max 1 k) available

/-- What `fread` gives and how it changes the stream. -/
def Machine.readFrom (s : Machine) (host : Host) (size k : ℕ) (f : Stream) : CString × Machine :=
  match host.fault s.calls, contentOf (s.fs.node f.place) with
  | none, some content =>
    let rest := content.drop f.pos
    let count := host.share s.calls (min size rest.length)
    let atEnd := decide (count = rest.length ∧ rest.length < size)
    let f := { f with pos := f.pos + count, eof := f.eof || atEnd }
    (rest.take count, { s.afterCall none with streams := Function.update s.streams k (some f) })
  | _, _ =>
    let f := { f with err := true }
    ([], { s.afterCall none with streams := Function.update s.streams k (some f) })

/-- `fread` of up to `size` bytes. -/
def fread (size : ℕ) (stream : Option ℕ) : Proc CString :=
  withStream stream fun k f => step fun host s => s.readFrom host size k f

/-- The contents after bytes were written at a position. -/
def overwritten (content : CString) (pos : ℕ) (bytes : CString) : CString :=
  content.take pos ++ bytes ++ content.drop (pos + bytes.length)

/-- How much `fwrite` writes and what becomes of the file and the stream. -/
def Machine.writeTo (s : Machine) (host : Host) (bytes : CString) (k : ℕ) (f : Stream) :
    ℕ × Machine :=
  match host.fault s.calls with
  | none =>
    let count := host.share s.calls bytes.length
    let old := (contentOf (s.fs.node f.place)).getD []
    let content := overwritten old f.pos (bytes.take count)
    let f' := { f with pos := f.pos + count }
    (count, { s.afterCall none with
      fs := s.fs.adjust f.place (withContent content) (withContent_directory content)
      streams := Function.update s.streams k (some f') })
  | some _ =>
    let f := { f with err := true }
    (0, { s.afterCall none with streams := Function.update s.streams k (some f) })

/-- `fwrite`: the number of bytes written. -/
def fwrite (bytes : CString) (stream : Option ℕ) : Proc ℕ :=
  withStream stream fun k f => step fun host s => s.writeTo host bytes k f

def feof (stream : Option ℕ) : Proc Bool := withStream stream fun _ f => pure f.eof

def ferror (stream : Option ℕ) : Proc Bool := withStream stream fun _ f => pure f.err

/-- `fflush`; `false` is a return of `EOF`. -/
def fflush (stream : Option ℕ) : Proc Bool := withStream stream fun _ _ => do
  pure (← query fun _ => .ok ()).isSome

/-- `fclose`; `false` is a return of `EOF`, and the stream is closed in any case. -/
def fclose (stream : Option ℕ) : Proc Bool := withStream stream fun k _ => do
  note (.closed k)
  setStream k none
  pure (← query fun _ => .ok ()).isSome

/-! ### Pointers -/

/-- The string that a pointer points to. -/
def Ptr.read (statics : Static → CString) : Ptr → CString
  | .text s => s
  | .static b => statics b

/-- Read a string through a pointer. -/
def load (p : Ptr) : Proc CString := do pure (p.read (← get).statics)

/-- Read a string through a pointer that may be `NULL`. -/
def deref : Option Ptr → Proc CString
  | none => abort
  | some p => load p

/-- Fill a static buffer. -/
def store (b : Static) (text : CString) : Proc Unit :=
  modify fun s => { s with statics := Function.update s.statics b text }

end LuaAdaLoad.Install.Posix
