import LuaAdaLoad.Control.Frames
import LuaAdaLoad.Install.Calls
import LuaAdaLoad.Install.Programs

/-!
# What the parts of the programs change

A `Calm` action changes nothing that lasts: it makes calls, opens and closes streams and fills static
buffers. All translators and checks are calm. A `Steady` action changes files, too, but neither the
working directory nor the suffixes nor the number of failures. Neither logs deeds.
-/

namespace LuaAdaLoad.Install.Effects

open LuaAdaLoad.Control.Actions LuaAdaLoad.Control.Weakest LuaAdaLoad.Control.Frames
open LuaAdaLoad.System.Paths LuaAdaLoad.System.FileSystem LuaAdaLoad.Install.Posix
open LuaAdaLoad.Install.Translation LuaAdaLoad.Install.Operators LuaAdaLoad.Install.Programs
open LuaAdaLoad.Install.Calls

/-- The event tells of a stream. -/
def OfStream : Event → Prop
  | .opened _ => True
  | .closed _ => True
  | _ => False

/-- The event tells of a stream or of a new directory. -/
def OfWork : Event → Prop
  | .mkdir _ _ _ => True
  | e => OfStream e

/-- Nothing that lasts is different. -/
structure Still (s t : Machine) : Prop extends Kept s t where
  failed : t.failed = s.failed

/-- At most the files are different, among the things that last. -/
structure Placed (s t : Machine) : Prop where
  cwd : t.cwd = s.cwd
  execSuffix : t.execSuffix = s.execSuffix
  dlibSuffix : t.dlibSuffix = s.dlibSuffix
  failed : t.failed = s.failed

/-- At most the suffixes are different, among the things that last. -/
structure Loaded (s t : Machine) : Prop where
  fs : t.fs = s.fs
  cwd : t.cwd = s.cwd
  failed : t.failed = s.failed

instance : IsPreorder Machine Still where
  refl s := ⟨Kept.refl s, rfl⟩
  trans _ _ _ h h' := ⟨h.toKept.trans h'.toKept, h'.failed.trans h.failed⟩

instance : IsPreorder Machine Placed where
  refl _ := ⟨rfl, rfl, rfl, rfl⟩
  trans _ _ _ h h' := ⟨h'.cwd.trans h.cwd, h'.execSuffix.trans h.execSuffix,
    h'.dlibSuffix.trans h.dlibSuffix, h'.failed.trans h.failed⟩

instance : IsPreorder Machine Loaded where
  refl _ := ⟨rfl, rfl, rfl⟩
  trans _ _ _ h h' := ⟨h'.fs.trans h.fs, h'.cwd.trans h.cwd, h'.failed.trans h.failed⟩

/-- A failure, of whatever status. -/
def Refused (e : Failure) : Prop := e.status ≠ .ok

/-- A failure with `INSTALL_STATUS_ERROR`. -/
def Erring (e : Failure) : Prop := e.status = .error

abbrev Calm {α : Type} (X : Failure → Prop) (x : Proc α) : Prop := Within OfStream X Still x

abbrev Steady {α : Type} (X : Failure → Prop) (x : Proc α) : Prop := Within OfWork X Placed x

variable {α : Type} {E : Event → Prop} {X : Failure → Prop} {R : Machine → Machine → Prop}
variable [IsPreorder Machine R]

theorem within_refused {status : Status} {message : String} (h : status ≠ .ok) :
    Within E Refused R (fail status message : Proc α) := within_raise h

theorem within_erring {message : String} :
    Within E Erring R (fail .error message : Proc α) := within_raise rfl

theorem ofWork_of_ofStream (e : Event) (h : OfStream e) : OfWork e := by
  cases e with
  | mkdir path s failure => trivial
  | _ => exact h

theorem calm_steady {x : Proc α} (hx : Calm X x) : Steady X x :=
  hx.mono ofWork_of_ofStream (fun _ => id) fun _ _ h => ⟨h.cwd, h.execSuffix, h.dlibSuffix, h.failed⟩

/-! ### Calls -/

theorem still_afterCall (s : Machine) (e : Option Errno) : Still s (s.afterCall e) :=
  ⟨(idle_afterCall s e).toKept, rfl⟩

theorem calm_query (g : Machine → Except Errno α) : Calm X (query g) :=
  within_step fun host s => by
    rcases host.fault s.calls with _ | e
    · rcases g s with e | a
      · exact still_afterCall s _
      · exact still_afterCall s _
    · exact still_afterCall s _

theorem calm_load (p : Ptr) : Calm X (load p) := within_bind within_get fun _ => within_pure _

theorem calm_deref (p : Option Ptr) : Calm X (deref p) := by
  cases p with
  | none => exact within_abort
  | some p => exact calm_load p

theorem calm_store (b : Static) (text : CString) : Calm X (store b text) :=
  within_modify fun _ => ⟨⟨rfl, rfl, rfl, rfl⟩, rfl⟩

theorem calm_openStream (p : Place) : Calm X (openStream p) :=
  within_bind within_get fun _ => within_bind (within_modify fun _ => ⟨⟨rfl, rfl, rfl, rfl⟩, rfl⟩)
    fun _ => within_bind (within_note trivial) fun _ => within_pure _

theorem calm_fopenRead (path : CString) : Calm X (fopenRead path) :=
  within_bind (calm_query _) fun o => by
    rcases o with _ | p
    · exact within_pure _
    · exact within_bind (calm_openStream p) fun _ => within_pure _

theorem within_withStream {stream : Option ℕ} {x : ℕ → Stream → Proc α}
    (hx : ∀ k f, Within E X R (x k f)) : Within E X R (withStream stream x) := by
  rcases stream with _ | k
  · exact within_abort
  · refine within_bind within_get fun s => ?_
    rcases s.streams k with _ | f
    · exact within_abort
    · exact hx k f

theorem calm_fread (size : ℕ) (stream : Option ℕ) : Calm X (fread size stream) :=
  within_withStream fun k f => within_step fun host s => by
    unfold Machine.readFrom
    split
    · exact ⟨⟨rfl, rfl, rfl, rfl⟩, rfl⟩
    · exact ⟨⟨rfl, rfl, rfl, rfl⟩, rfl⟩

theorem calm_feof (stream : Option ℕ) : Calm X (feof stream) :=
  within_withStream fun _ _ => within_pure _

theorem calm_ferror (stream : Option ℕ) : Calm X (ferror stream) :=
  within_withStream fun _ _ => within_pure _

theorem calm_fflush (stream : Option ℕ) : Calm X (fflush stream) :=
  within_withStream fun _ _ => within_bind (calm_query _) fun _ => within_pure _

theorem calm_fclose (stream : Option ℕ) : Calm X (fclose stream) :=
  within_withStream fun _ _ => within_bind (within_note trivial) fun _ =>
    within_bind (within_modify fun _ => ⟨⟨rfl, rfl, rfl, rfl⟩, rfl⟩) fun _ =>
      within_bind (calm_query _) fun _ => within_pure _

theorem steady_unfinished : Steady X (unfinished : Proc α) := fun _ _ _ =>
  ⟨fun _ he => absurd he List.not_mem_nil, trivial⟩

theorem steady_bounded {x : ℕ → Proc α} (hx : ∀ n, Steady X (x n)) : Steady X (bounded x) :=
  fun host n s => hx n host n s

theorem steady_change (g : Host → Machine → Except Errno FileSys) : Steady X (change g) :=
  within_step fun host s => by
    rcases host.fault s.calls with _ | e
    · rcases g host s with e | fs
      · exact ⟨rfl, rfl, rfl, rfl⟩
      · exact ⟨rfl, rfl, rfl, rfl⟩
    · exact ⟨rfl, rfl, rfl, rfl⟩

theorem steady_fwrite (bytes : CString) (stream : Option ℕ) : Steady X (fwrite bytes stream) :=
  within_withStream fun k f => within_step fun host s => by
    unfold Machine.writeTo
    split
    · exact ⟨rfl, rfl, rfl, rfl⟩
    · exact ⟨rfl, rfl, rfl, rfl⟩

theorem steady_fopenWrite (path : CString) : Steady X (fopenWrite path) := by
  refine within_bind (within_step fun host s => ?_) fun o => ?_
  · rcases host.fault s.calls with _ | e
    · rcases s.fs.openWrite s.cwd path (host.masked 511 438) host.uid host.gid with e | ⟨p, fs⟩
      · exact ⟨rfl, rfl, rfl, rfl⟩
      · exact ⟨rfl, rfl, rfl, rfl⟩
    · exact ⟨rfl, rfl, rfl, rfl⟩
  · rcases o with _ | p
    · exact within_pure _
    · exact within_bind (calm_steady (calm_openStream p)) fun _ => within_pure _

/-! ### Translators -/

theorem calm_libname (name : CString) (buf : Static) : Calm Refused (libname name buf) := by
  refine within_bind (calm_fopenRead _) fun fp => within_ite (within_pure _) ?_
  refine within_bind (calm_fread _ _) fun bytes => within_bind (calm_ferror _) fun b => within_ite ?_ ?_
  · exact within_bind (calm_fclose _) fun _ => within_pure _
  · exact within_ite (within_bind (calm_store _ _) fun _ => calm_fclose _) within_abort

theorem calm_baseName (dir : Ptr) : Calm Refused (baseName dir) := by
  refine within_bind (calm_load _) fun path => ?_
  rcases baseNameOf path with _ | base
  · exact within_pure _
  · exact within_bind (calm_store _ _) fun _ => within_pure _

theorem calm_libraryName (name : Ptr) (buf : Static) : Calm Refused (libraryName name buf) := by
  refine within_bind (calm_load _) fun x => within_ite ?_ (within_pure _)
  refine within_bind (calm_load _) fun y => within_bind (calm_libname _ _) fun ok => ?_
  exact within_ite (within_pure _) (within_refused nofun)

theorem calm_libraryBaseName (name : Ptr) : Calm Refused (libraryBaseName name) := by
  refine within_bind (calm_load _) fun x => within_ite ?_ (within_pure _)
  refine within_bind (calm_load _) fun y => within_bind (calm_libname _ _) fun ok => ?_
  refine within_ite (within_bind (calm_baseName _) fun o => ?_) (within_refused nofun)
  rcases o with _ | base
  · exact within_refused nofun
  · exact within_bind (calm_load _) fun _ => within_bind (calm_store _ _) fun _ => within_pure _

theorem calm_ntranCopy (ins : InstallItem Ptr) : Calm Refused (ntranCopy ins) := by
  unfold ntranCopy
  rcases ins.src with _ | src
  · exact within_refused nofun
  rcases ins.dir with _ | dir
  · exact within_refused nofun
  refine within_bind (calm_libraryName _ _) fun p => within_bind (calm_libraryName _ _) fun q => ?_
  refine within_bind (calm_baseName _) fun o => ?_
  rcases o with _ | base
  · exact within_refused nofun
  refine within_bind (calm_load _) fun x => within_bind (calm_load _) fun y => ?_
  rcases snprintf maxPathLen (joined x y) with _ | path
  · exact within_refused nofun
  · exact within_bind (calm_store _ _) fun _ => within_pure _

theorem calm_ntranCopyExec (ins : InstallItem Ptr) : Calm Refused (ntranCopyExec ins) := by
  refine within_bind (calm_ntranCopy _) fun ins => within_bind within_get fun s => ?_
  refine within_bind (calm_deref _) fun x => ?_
  rcases snprintf maxPathLen (x ++ s.execSuffix) with _ | src
  · exact within_refused nofun
  refine within_bind (calm_store _ _) fun _ => within_bind (calm_deref _) fun y => ?_
  rcases snprintf maxPathLen (y ++ s.execSuffix) with _ | dst
  · exact within_refused nofun
  · exact within_bind (calm_store _ _) fun _ => within_pure _

theorem calm_ntranLink (ins : InstallItem Ptr) : Calm Refused (ntranLink ins) := by
  unfold ntranLink
  rcases ins.src with _ | src
  · exact within_refused nofun
  rcases ins.dir with _ | dir
  · exact within_refused nofun
  rcases ins.dst with _ | dst
  · exact within_refused nofun
  · exact within_pure _

theorem calm_ntranLiblink (ins : InstallItem Ptr) : Calm Refused (ntranLiblink ins) := by
  unfold ntranLiblink
  rcases ins.src with _ | src
  · exact within_refused nofun
  rcases ins.dir with _ | dir
  · exact within_refused nofun
  rcases ins.dst with _ | dst
  · exact within_refused nofun
  refine within_bind (calm_libraryBaseName _) fun p => within_bind (calm_baseName _) fun o => ?_
  rcases o with _ | base
  · exact within_refused nofun
  refine within_bind (calm_load _) fun x => within_bind within_get fun s => ?_
  rcases snprintf maxPathLen (x ++ s.dlibSuffix) with _ | name
  · exact within_refused nofun
  · exact within_bind (calm_store _ _) fun _ => within_pure _

theorem calm_ntranInDir (ins : InstallItem Ptr) (buf : Static) :
    Calm Refused (ntranInDir ins buf) := by
  refine within_bind (calm_deref _) fun x => within_bind (calm_deref _) fun y => ?_
  rcases snprintf maxPathLen (joined x y) with _ | path
  · exact within_refused nofun
  · exact within_bind (calm_store _ _) fun _ => within_pure _

theorem calm_installTrans (op : InstOp) (ins : InstallItem Ptr) :
    Calm Refused ((installOpers op).trans ins) := by
  cases op with
  | copy => exact calm_ntranCopy ins
  | copyExec => exact calm_ntranCopyExec ins
  | symlink => exact calm_ntranLink ins
  | mkdir => exact within_pure _
  | liblink => exact calm_ntranLiblink ins

theorem calm_instchkTrans (op : InstOp) (ins : InstallItem Ptr) :
    Calm Refused ((instchkOpers op).trans ins) := by
  cases op with
  | copy => exact calm_ntranCopy ins
  | copyExec => exact calm_ntranCopyExec ins
  | symlink => exact within_bind (calm_ntranLink ins) fun _ => calm_ntranInDir _ _
  | mkdir => exact within_pure _
  | liblink => exact within_bind (calm_ntranLiblink ins) fun _ => calm_ntranInDir _ _

/-! ### Checks -/

theorem calm_wanted (condition : Bool) (message : String) : Calm Erring (wanted condition message) :=
  within_ite (within_pure _) (within_erring)

theorem calm_fileSize (file : CString) : Calm Erring (fileSize file) :=
  within_bind within_ask fun _ => within_bind (calm_query _) fun _ => within_pure _

theorem calm_fileType (file : CString) (nofollow : Bool) : Calm Erring (fileType file nofollow) := by
  unfold fileType
  split_ifs
  · exact within_bind (calm_query _) fun _ => within_pure _
  · exact within_bind (calm_query _) fun _ => within_pure _

theorem calm_sizeCheck (sizeWant : Option ℕ) (type : FileType) (dst : CString) :
    Calm Erring (sizeCheck sizeWant type dst) := by
  refine within_ite (within_bind (calm_fileSize _) fun o => ?_) (within_pure _)
  rcases o with _ | sizeGot
  · exact within_erring
  · exact calm_wanted _ _

/-- The check of a file is one deed and what is calm. -/
theorem fileCheck_eq (src dst : CString) (mode uid gid : ℕ) (type : FileType) :
    ∃ rest : Proc Unit, fileCheck src mode type uid gid dst =
      (doing (.check dst) >>= fun _ => rest) ∧ Calm Erring rest := by
  refine ⟨_, rfl, within_bind (within_modify fun _ => ⟨⟨rfl, rfl, rfl, rfl⟩, rfl⟩)
    fun _ => within_bind ?_ fun sizeWant => ?_⟩
  · exact within_ite (calm_fileSize _) (within_pure _)
  refine within_bind (calm_fileType _ _) fun o => ?_
  rcases o with _ | typeGot
  · exact within_erring
  refine within_bind (calm_wanted _ _) fun _ => within_bind (calm_sizeCheck _ _ _) fun _ => ?_
  refine within_bind (within_bind (calm_query _) fun _ => within_pure _) fun o => ?_
  rcases o with _ | modeGot
  · exact within_erring
  refine within_bind (calm_wanted _ _) fun _ => ?_
  refine within_bind (within_bind (calm_query _) fun _ => within_pure _) fun o => ?_
  rcases o with _ | ⟨uidGot, gidGot⟩
  · exact within_erring
  · exact within_bind (calm_wanted _ _) fun _ => calm_wanted _ _

/-! ### Copies and directories -/

theorem steady_writeOut (out : Option ℕ) (k : ℕ) (buf : CString) :
    Steady Erring (writeOut out k buf) := by
  induction k generalizing buf with
  | zero => exact steady_unfinished
  | succ k ih =>
    refine within_ite (within_pure _) (within_bind (steady_fwrite _ _) fun w => within_ite ?_ (ih _))
    refine within_bind (calm_steady (calm_feof _)) fun b => within_ite (within_pure _) ?_
    exact within_bind (calm_steady (calm_ferror _)) fun b => within_ite (within_pure _) (ih _)

theorem steady_copyLoop (inp out : Option ℕ) (k : ℕ) : Steady Erring (copyLoop inp out k) := by
  induction k with
  | zero => exact steady_unfinished
  | succ k ih =>
    refine within_bind (calm_steady (calm_fread _ _)) fun buf =>
      within_bind (calm_steady (calm_feof _)) fun b => within_ite ?_ ?_
    · exact within_pure _
    refine within_bind (calm_steady (calm_ferror _)) fun b => within_ite (within_pure _) ?_
    exact within_bind (steady_bounded fun n => steady_writeOut _ _ _) fun b =>
      within_ite ih (within_pure _)

theorem steady_copyFailed (fdSrc fdDst : Option ℕ) (dstTmp : CString) (message : String) :
    Steady Erring (copyFailed fdSrc fdDst dstTmp message) :=
  within_bind (calm_steady (calm_fclose _)) fun _ => within_bind (calm_steady (calm_fclose _)) fun _ =>
    within_bind (steady_change _) fun _ => within_erring

theorem steady_copyWritten (fdSrc fdDst : Option ℕ) (dstTmp dst : CString) (uid gid mode : ℕ) :
    Steady Erring (copyWritten fdSrc fdDst dstTmp dst uid gid mode) := by
  refine within_bind (calm_steady (calm_fflush _)) fun b => within_ite (steady_copyFailed _ _ _ _) ?_
  refine within_bind (steady_change _) fun b => within_ite (steady_copyFailed _ _ _ _) ?_
  refine within_bind (steady_change _) fun b => within_ite (steady_copyFailed _ _ _ _) ?_
  refine within_bind (calm_steady (calm_fclose _)) fun b => within_ite (steady_copyFailed _ _ _ _) ?_
  refine within_bind (calm_steady (calm_fclose _)) fun b => within_ite (steady_copyFailed _ _ _ _) ?_
  exact within_bind (steady_change _) fun b => within_ite (steady_copyFailed _ _ _ _) (within_pure _)

theorem steady_installMkdir (dir : CString) (mode : ℕ) : Steady Erring (installMkdir dir mode) :=
  within_bind within_get fun _ => within_bind (steady_change _) fun _ => within_bind within_get fun _ =>
    within_bind (within_note trivial) fun _ => within_pure _

theorem steady_rmkdirLoop (perm k : ℕ) (buf rest : CString) :
    Steady Erring (rmkdirLoop perm k buf rest) := by
  induction k generalizing buf rest with
  | zero => exact steady_unfinished
  | succ k ih =>
    refine within_ite (within_pure _) (within_ite (within_pure _) ?_)
    refine within_bind (steady_installMkdir _ _) fun i => ?_
    exact within_bind within_get fun s => within_ite (within_pure _) (ih _ _)

/-- The copy of a file is one deed and what is steady. -/
theorem fileCopy_eq (src dst : CString) (uid gid mode : ℕ) :
    ∃ rest : Proc Unit, fileCopy src dst uid gid mode = (doing (.copy dst) >>= fun _ => rest) ∧
      Steady Erring rest := by
  refine ⟨_, rfl, ?_⟩
  rcases snprintf maxPathLen (dst ++ ".tmp".toList) with _ | dstTmp
  · exact within_erring
  refine within_bind (calm_steady (calm_fopenRead _)) fun fdSrc => within_ite (within_erring) ?_
  refine within_bind (steady_fopenWrite _) fun fdDst => within_ite (steady_copyFailed _ _ _ _) ?_
  refine within_bind (steady_bounded (steady_copyLoop _ _)) fun o => ?_
  rcases o with _ | message
  · exact steady_copyWritten _ _ _ _ _ _ _
  · exact steady_copyFailed _ _ _ _

/-! ### Initialisation -/

theorem within_installInit (suffixFile : String) :
    Within OfStream Refused Loaded (installInit suffixFile) := by
  have hcalm : ∀ {α : Type} {x : Proc α}, Calm Refused x → Within OfStream Refused Loaded x := fun hx =>
    hx.mono (fun _ => id) (fun _ => id) fun _ _ h => ⟨h.fs, h.cwd, h.failed⟩
  refine within_bind (hcalm (calm_fopenRead _)) fun fp => within_ite (within_refused nofun) ?_
  refine within_bind (within_modify fun _ => ⟨rfl, rfl, rfl⟩) fun _ => ?_
  refine within_bind (hcalm (calm_fread _ _)) fun suffix => within_ite ?_ ?_
  · refine within_bind (hcalm (calm_ferror _)) fun failed => ?_
    refine within_bind (hcalm (calm_feof _)) fun ended => ?_
    refine within_bind (hcalm (calm_fclose _)) fun _ => ?_
    exact within_ite (within_refused nofun) (within_ite (within_refused nofun) (within_refused nofun))
  · refine within_bind (within_modify fun _ => ⟨rfl, rfl, rfl⟩) fun _ => ?_
    refine within_bind (hcalm (calm_fclose _)) fun closed => within_ite (within_refused nofun) ?_
    exact within_modify fun _ => ⟨rfl, rfl, rfl⟩

/-- The rest of a program runs just if the initialisation returns OK. -/
theorem wp_afterInit {host : Host} {n : ℕ} {h : List Event} {s : Machine} {rest : Proc ℕ}
    {Q : Post Failure Machine Event ℕ}
    (hrest : ∀ l t, (installInit "conf-sosuffix" host n s).ending = .done () t → Loaded s t →
      (∀ e ∈ l, OfStream e) → wp host n id rest Q (h ++ l) t)
    (hexit : ∀ l t, (∀ u, (installInit "conf-sosuffix" host n s).ending ≠ .done () u) →
      (∀ e ∈ l, OfStream e) → Loaded s t → Q.done 112 (h ++ l) t)
    (hstop : ∀ l, (∀ e ∈ l, OfStream e) → Q.stopped (h ++ l)) :
    wp host n id (afterInit rest) Q h s := by
  simp only [afterInit, statusOf, wp_bind, wp_attempt]
  refine wp_mono (wp_and_ending (within_installInit "conf-sosuffix").wp) ?_ ?_ ?_
  · rintro _ h' t ⟨⟨hload, l, rfl, hl⟩, hrun⟩
    simp only [wp_pure, if_true]
    exact hrest l t hrun hload hl
  · rintro e h' t ⟨⟨hno, hload, l, rfl, hl⟩, hrun⟩
    have hno : ¬ e.status = .ok := hno
    simp only [wp_pure, if_neg hno]
    exact hexit l t (by simp [hrun]) hl hload
  · rintro h' ⟨l, rfl, hl⟩
    exact hstop l hl

/-! ### The table -/

section Items

variable {host : Host} {n : ℕ} {h : List Event} {s : Machine}
variable {process : InstallItem Ptr → Proc Unit} {Q : Post Failure Machine Event Bool}

/-- `P` is asserted of the status with which an item ends. -/
def endPost (P : Status → List Event → Machine → Prop) (stopped : List Event → Prop) :
    Post Failure Machine Event Unit where
  done _ := P .ok
  raised e := P e.status
  stopped := stopped

/-- One item: the program goes on unless it ends with FATAL. -/
theorem wp_processItem {item : InstallItem CString}
    (hx : wp host n id (process (loaded item)) (endPost (fun status h' t =>
      Q.done (decide (status ≠ .fatal)) (h' ++ [.finished item status t]) t) Q.stopped)
      (h ++ [.started item s]) s) : wp host n id (processItem process item) Q h s := by
  simp only [processItem, statusOf, wp_bind, wp_get, wp_note, wp_attempt, id]
  refine wp_mono hx (fun _ h' t hover => ?_) (fun e h' t hover => ?_) fun _ => id
  · simp only [wp_pure, wp_get, wp_note, id]
    exact hover
  · simp only [wp_pure, wp_get, wp_note, id]
    exact hover

/-- **The rule for the table**: `I` is asserted of the items that are over, whenever the next one is
about to be started. -/
theorem wp_eachItem {items : List (InstallItem CString)}
    {I : List (InstallItem CString) → List Event → Machine → Prop} (hstart : I [] h s)
    (hend : ∀ h s, I items h s → Q.done true h s)
    (hitem : ∀ pre item post h s, items = pre ++ item :: post → I pre h s →
      wp host n id (process (loaded item)) (endPost (fun status h' t =>
        if status = .fatal then Q.done false (h' ++ [.finished item status t]) t
        else I (pre ++ [item]) (h' ++ [.finished item status t]) t) Q.stopped)
        (h ++ [.started item s]) s) :
    wp host n id (eachItem process items) Q h s := by
  have hfrom : ∀ post pre {h s}, items = pre ++ post → I pre h s →
      wp host n id (eachItem process post) Q h s := by
    intro post
    induction post with
    | nil =>
      intro pre h s hitems hI
      rw [List.append_nil] at hitems
      subst hitems
      rw [eachItem, wp_pure]
      exact hend h s hI
    | cons item post ih =>
      intro pre h s hitems hI
      rw [eachItem, wp_bind]
      have hover : ∀ (status : Status) (h' : List Event) (t : Machine),
          (if status = .fatal then Q.done false h' t else I (pre ++ [item]) h' t) →
          wp host n id (if decide (status ≠ .fatal) = true then eachItem process post else pure false)
            Q h' t := by
        intro status h' t hover
        by_cases hfatal : status = .fatal
        · rw [if_pos hfatal] at hover
          rw [if_neg (by simp [hfatal]), wp_pure]
          exact hover
        · rw [if_neg hfatal] at hover
          rw [if_pos (decide_eq_true hfatal)]
          exact ih (pre ++ [item]) (by simp [hitems]) hover
      refine wp_processItem ?_
      exact wp_mono (hitem pre item post h s hitems hI) (fun _ h' t => hover .ok _ t)
        (fun e h' t => hover e.status _ t) fun _ => id
  exact hfrom items [] rfl hstart

end Items

end LuaAdaLoad.Install.Effects
