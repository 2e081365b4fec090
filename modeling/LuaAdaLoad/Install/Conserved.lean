import LuaAdaLoad.Install.Agreement
import LuaAdaLoad.Install.Courses
import LuaAdaLoad.System.Removals

/-!
# What is conserved

Each program changes the files in one direction only, whatever its table says and whichever calls
fail (`Conserves`): the installer never takes a directory away, the deinstaller only takes away, and
the checker changes nothing. Each direction is a reflexive and transitive relation between file
systems, and a whole run keeps it if every call does (`keeping_main`).
-/

namespace LuaAdaLoad.Install.Conserved

open LuaAdaLoad.Control.Actions LuaAdaLoad.Control.Weakest LuaAdaLoad.Control.Frames
open LuaAdaLoad.System.Paths LuaAdaLoad.System.FileSystem LuaAdaLoad.System.Removals
open LuaAdaLoad.Install.Posix LuaAdaLoad.Install.Translation LuaAdaLoad.Install.Operators
open LuaAdaLoad.Install.Programs LuaAdaLoad.Install.Calls LuaAdaLoad.Install.Effects
open LuaAdaLoad.Install.Agreement (deinstTrans_eq)
open LuaAdaLoad.Install.Courses (Tool)
open LuaAdaLoad.Install.StartingDirectory
  (calm_uidgidLookup suffixFiles libLink exitStatus exitStatus_eq_some)

/-! ### Relations between file systems -/

section Rules

variable {α β : Type} {F : FileSys → FileSys → Prop} [IsPreorder FileSys F] {X : Failure → Prop}

/-- The file systems of the states are related. -/
def OnFiles (F : FileSys → FileSys → Prop) (s t : Machine) : Prop := F s.fs t.fs

instance : IsPreorder Machine (OnFiles F) where
  refl s := refl_of F s.fs
  trans _ _ _ h h' := trans_of F h h'

/-- The action relates the file systems. -/
abbrev Keeping (F : FileSys → FileSys → Prop) (x : Proc α) : Prop :=
  Within (fun _ => True) (fun _ => True) (OnFiles F) x

theorem onFiles_of_same {s t : Machine} (h : t.fs = s.fs) : OnFiles F s t := by
  unfold OnFiles
  rw [h]
  exact refl_of F s.fs

theorem keeping_of_still {x : Proc α} (hx : Calm X x) : Keeping F x :=
  hx.mono (fun _ _ => trivial) (fun _ _ => trivial) fun _ _ h => onFiles_of_same h.fs

theorem keeping_of_calm {x : Proc α} (hx : Calm Erring x) : Keeping F x := keeping_of_still hx

theorem keeping_modify {f : Machine → Machine} (hf : ∀ s, (f s).fs = s.fs) : Keeping F (modify f) :=
  within_modify fun s => onFiles_of_same (hf s)

theorem keeping_fail (status : Status) (message : String) :
    Keeping F (fail status message : Proc α) :=
  within_raise trivial

theorem keeping_doing (d : Deed) : Keeping F (doing d) :=
  within_bind within_get fun _ => within_note trivial

theorem keeping_change {f : Host → Machine → Except Errno FileSys}
    (hf : ∀ host s fs', f host s = .ok fs' → F s.fs fs') : Keeping F (change f) :=
  within_step fun host s => by
    rcases host.fault s.calls with _ | e
    · rcases hfs : f host s with e | fs'
      · exact onFiles_of_same rfl
      · exact hf host s fs' hfs
    · exact onFiles_of_same rfl

theorem keeping_chdir (path : CString) : Keeping F (chdir path) :=
  within_bind (keeping_of_calm (calm_query _)) fun o => by
    rcases o with _ | p
    · exact within_pure _
    · exact within_bind (keeping_modify fun _ => rfl) fun _ => within_pure _

theorem keeping_restoreCwd (cwd : CString) : Keeping F (restoreCwd cwd) :=
  within_bind (keeping_chdir _) fun _ => within_ite (keeping_fail _ _) (within_pure _)

theorem keeping_processed {opers : InstOp → InstOper} {ins : InstallItem Ptr} {dryrun : Bool}
    (htrans : Calm Refused ((opers ins.op).trans ins))
    (hoper : ∀ ins, Keeping F ((opers ins.op).oper ins dryrun)) :
    Keeping F (processed opers ins dryrun) :=
  within_bind (keeping_of_still htrans) fun ins => hoper ins

/-! ### Whole runs -/

theorem keeping_statusOf {x : Proc Unit} (hx : Keeping F x) : Keeping F (statusOf x) :=
  within_attempt (within_bind hx fun _ => within_pure _) fun _ _ => within_pure _

theorem keeping_processItem {process : InstallItem Ptr → Proc Unit}
    (hprocess : ∀ ins, Keeping F (process ins)) (item : InstallItem CString) :
    Keeping F (processItem process item) := by
  refine within_bind within_get fun _ => within_bind (within_note trivial) fun _ => ?_
  refine within_bind (keeping_statusOf (hprocess _)) fun _ => within_bind within_get fun _ => ?_
  exact within_bind (within_note trivial) fun _ => within_pure _

theorem keeping_eachItem {process : InstallItem Ptr → Proc Unit}
    (hprocess : ∀ ins, Keeping F (process ins)) (items : List (InstallItem CString)) :
    Keeping F (eachItem process items) := by
  induction items with
  | nil => exact within_pure _
  | cons item items ih =>
    exact within_bind (keeping_processItem hprocess item) fun _ => within_ite ih (within_pure _)

theorem keeping_afterInit {rest : Proc ℕ} (hrest : Keeping F rest) :
    Keeping F (afterInit rest) := by
  refine within_bind (keeping_statusOf ?_) fun _ => within_ite hrest (within_pure _)
  exact (within_installInit _).mono (fun _ _ => trivial) (fun _ _ => trivial) fun _ _ h =>
    onFiles_of_same h.fs

/-- **A whole run** relates the file systems if each item does. -/
theorem keeping_main {tool : Tool} (hprocess : ∀ ins, Keeping F (tool.process ins))
    (insthier : List (InstallItem CString)) : Keeping F (tool.main insthier) := by
  cases tool with
  | installer dryrun =>
    refine keeping_afterInit (within_bind (keeping_eachItem hprocess _) fun _ => ?_)
    exact within_ite (within_pure _) (within_pure _)
  | deinstaller dryrun =>
    refine keeping_afterInit (within_ite within_abort ?_)
    refine within_bind (keeping_eachItem hprocess _) fun _ => ?_
    exact within_ite (within_pure _) (within_pure _)
  | instchk =>
    refine keeping_afterInit (within_bind (keeping_eachItem hprocess _) fun _ => ?_)
    refine within_ite (within_bind within_get fun t => ?_) (within_pure _)
    exact within_ite (within_bind (within_note trivial) fun _ => within_pure _) (within_pure _)

/-! ### The checker changes nothing -/

theorem keeping_countedCheck (ins : InstallItem Ptr) (src dst : Option Ptr) (type : FileType) :
    Keeping F (countedCheck ins src dst type) := by
  refine within_bind (keeping_of_calm (calm_uidgidLookup _ _)) fun ids => ?_
  refine within_bind (keeping_of_calm (calm_deref _)) fun x => ?_
  refine within_bind (keeping_of_calm (calm_deref _)) fun y => ?_
  refine within_attempt (X := fun _ => True) ?_ fun e _ =>
    within_bind (keeping_modify fun _ => rfl) fun _ => within_raise trivial
  obtain ⟨rest, hcheck, hrest⟩ := fileCheck_eq x y ins.perm ids.1 ids.2 type
  rw [hcheck]
  exact within_bind (keeping_doing _) fun _ => keeping_of_calm hrest

theorem keeping_instchkOper (ins : InstallItem Ptr) :
    Keeping F ((instchkOpers ins.op).oper ins false) := by
  obtain ⟨op, src, dst, dir, owner, group, perm⟩ := ins
  cases op with
  | mkdir => exact keeping_countedCheck _ _ _ _
  | _ => exact keeping_countedCheck _ _ _ _

theorem keeping_installCheck (ins : InstallItem Ptr) : Keeping F (installCheck ins) :=
  keeping_processed (calm_instchkTrans _ _) keeping_instchkOper

end Rules

/-! ### The deinstaller only takes away -/

section Removal

variable {dryrun : Bool} {ins : InstallItem Ptr}

/-- Each place has what it had, or nothing. -/
def OnlyRemoved (fs fs' : FileSys) : Prop := ∀ p, fs'.node p = fs.node p ∨ fs'.node p = none

instance : IsPreorder FileSys OnlyRemoved where
  refl _ _ := .inl rfl
  trans _ _ _ h h' p := by
    rcases h' p with hp | hp
    · rw [hp]
      exact h p
    · exact .inr hp

theorem onlyRemoved_unlink {fs fs' : FileSys} {cwd : Place} {path : CString}
    (h : fs.unlink cwd path = .ok fs') : OnlyRemoved fs fs' := fun q => by
  obtain ⟨p, hp, -⟩ := unlink_entry h
  obtain ⟨hother, hgone⟩ := unlink_ok hp h
  rcases eq_or_ne q p with rfl | hq
  · exact .inr hgone
  · exact .inl (hother q hq)

theorem onlyRemoved_rmdir {fs fs' : FileSys} {cwd : Place} {path : CString}
    (h : fs.rmdir cwd path = .ok fs') : OnlyRemoved fs fs' := fun q => by
  obtain ⟨p, hp, -⟩ := rmdir_isDir h
  obtain ⟨hother, hgone⟩ := rmdir_ok hp h
  rcases eq_or_ne q p with rfl | hq
  · exact .inr hgone
  · exact .inl (hother q hq)

theorem removing {d : Deed} {x : Proc Bool} {message : String} (hx : Keeping OnlyRemoved x) :
    Keeping OnlyRemoved (do
      doing d
      let gone ← x
      if !gone then
        fail .error message) :=
  within_bind (keeping_doing d) fun _ => within_bind hx fun _ =>
    within_ite (keeping_fail _ _) (within_pure _)

theorem removing_unlink (path : CString) : Keeping OnlyRemoved (unlink path) :=
  keeping_change fun _ _ _ => onlyRemoved_unlink

theorem removing_deinstCopy : Keeping OnlyRemoved (deinstCopy ins dryrun) :=
  within_bind (keeping_of_calm (calm_deref _)) fun dst =>
    within_ite (removing (removing_unlink dst)) (within_pure _)

theorem removing_deinstLink : Keeping OnlyRemoved (deinstLink ins dryrun) := by
  refine within_bind (keeping_of_calm (calm_deref _)) fun dir => ?_
  refine within_bind (keeping_of_calm (calm_deref _)) fun dst => ?_
  refine within_ite ?_ (within_pure _)
  rcases snprintf maxPathLen (joined dir dst) with _ | path
  · exact keeping_fail _ _
  · exact removing (removing_unlink path)

theorem removing_deinstMkdir : Keeping OnlyRemoved (deinstMkdir ins dryrun) :=
  within_bind (keeping_of_calm (calm_deref _)) fun _ =>
    within_ite (removing (keeping_change fun _ _ _ => onlyRemoved_rmdir)) (within_pure _)

theorem removing_deinstall (ins : InstallItem Ptr) :
    Keeping OnlyRemoved (deinstall ins dryrun) := by
  refine keeping_processed ?_ fun ins => ?_
  · rw [deinstTrans_eq]
    exact calm_installTrans _ _
  · obtain ⟨op, src, dst, dir, owner, group, perm⟩ := ins
    cases op with
    | copy => exact removing_deinstCopy
    | copyExec => exact removing_deinstCopy
    | symlink => exact removing_deinstLink
    | mkdir => exact removing_deinstMkdir
    | liblink => exact removing_deinstLink

end Removal

/-! ### The installer keeps directories -/

section Directories

variable {dryrun : Bool} {ins : InstallItem Ptr} {fs fs' : FileSys} {cwd : Place} {path : CString}

/-- Every directory is still there. -/
def KeepsDirs (fs fs' : FileSys) : Prop := ∀ p, IsDir (fs.node p) → IsDir (fs'.node p)

instance : IsPreorder FileSys KeepsDirs where
  refl _ _ := id
  trans _ _ _ h h' p := h' p ∘ h p

theorem keepsDirs_adjust {p : Place} {f : Node → Node}
    (hf : ∀ x, (f x).kind = .directory ↔ x.kind = .directory) :
    KeepsDirs fs (fs.adjust p f hf) := by
  intro q hq
  rw [node_adjust]
  split_ifs
  · obtain ⟨x, hx, hk⟩ := isDir_iff.mp hq
    rw [hx]
    exact isDir_iff.mpr ⟨f x, rfl, (hf x).mpr hk⟩
  · exact hq

theorem keepsDirs_put {n : Name} {dir : Place} {x : Node} {hdir : IsDir (fs.node dir)}
    {hkind : IsDir (fs.node (n :: dir)) → x.kind = .directory} :
    KeepsDirs fs (fs.put n dir x hdir hkind) := by
  intro q hq
  rw [node_put]
  split_ifs with h
  · subst h
    exact isDir_iff.mpr ⟨x, rfl, hkind hq⟩
  · exact hq

theorem keepsDirs_remove {n : Name} {dir : Place} {hempty : ∀ m, fs.node (m :: n :: dir) = none}
    (h : ¬ IsDir (fs.node (n :: dir))) : KeepsDirs fs (fs.remove n dir hempty) := by
  intro q hq
  rwa [isDir_remove fun hqn => h (hqn ▸ hq)]

theorem keepsDirs_mkdir {mode uid gid : ℕ} (h : fs.mkdir cwd path mode uid gid = .ok fs') :
    KeepsDirs fs fs' := by
  unfold FileSys.mkdir at h
  rcases he : fs.locate cwd path with _ | e
  · simp [he] at h
  · simp only [he] at h
    split_ifs at h
    obtain rfl := Except.ok.inj h
    exact keepsDirs_put

theorem keepsDirs_symlink {target : CString} {uid gid : ℕ}
    (h : fs.symlink cwd target path uid gid = .ok fs') : KeepsDirs fs fs' := by
  unfold FileSys.symlink at h
  split_ifs at h
  rcases he : fs.locate cwd path with _ | e
  · simp [he] at h
  · simp only [he] at h
    split_ifs at h
    obtain rfl := Except.ok.inj h
    exact keepsDirs_put

theorem keepsDirs_unlink (h : fs.unlink cwd path = .ok fs') : KeepsDirs fs fs' := by
  unfold FileSys.unlink at h
  split_ifs at h
  rcases he : fs.locate cwd path with _ | e
  · simp [he] at h
  · simp only [he] at h
    split_ifs at h with _ hdir
    obtain rfl := Except.ok.inj h
    exact keepsDirs_remove hdir

theorem keepsDirs_rename {old new : CString} (h : fs.rename cwd old new = .ok fs') :
    KeepsDirs fs fs' := by
  unfold FileSys.rename at h
  split_ifs at h
  rcases hs : fs.locate cwd old with _ | e
  · simp [hs] at h
  rcases hd : fs.locate cwd new with _ | d
  · simp [hs, hd] at h
  rcases hx : fs.node e.place with _ | x
  · simp [hs, hd, hx] at h
  simp only [hs, hd, hx] at h
  split_ifs at h with hdir
  · obtain rfl := Except.ok.inj h
    exact refl_of KeepsDirs fs
  · obtain rfl := Except.ok.inj h
    exact trans_of KeepsDirs (keepsDirs_remove (hx ▸ hdir)) keepsDirs_put

theorem keepsDirs_openWrite {mode uid gid : ℕ} {p : Place}
    (h : fs.openWrite cwd path mode uid gid = .ok (p, fs')) : KeepsDirs fs fs' := by
  unfold FileSys.openWrite at h
  split_ifs at h
  rcases hw : fs.walk true maxSymlinks (start cwd path) (components path) with _ | _ | ⟨n, dir⟩
  · simp [hw] at h
  · simp [hw] at h
  simp only [hw] at h
  split_ifs at h
  · obtain ⟨-, rfl⟩ := Prod.mk.inj (Except.ok.inj h)
    exact keepsDirs_put
  · obtain ⟨-, rfl⟩ := Prod.mk.inj (Except.ok.inj h)
    exact keepsDirs_adjust _

theorem keepsDirs_chmod {mode : ℕ} (h : fs.chmod cwd path mode = .ok fs') : KeepsDirs fs fs' := by
  unfold FileSys.chmod at h
  rcases hp : fs.follow cwd path with _ | p
  · simp [hp] at h
  · simp only [hp] at h
    obtain rfl := Except.ok.inj h
    exact keepsDirs_adjust _

theorem keepsDirs_chown {uid gid : ℕ} (h : fs.chown cwd path uid gid = .ok fs') :
    KeepsDirs fs fs' := by
  unfold FileSys.chown at h
  rcases hp : fs.follow cwd path with _ | p
  · simp [hp] at h
  · simp only [hp] at h
    obtain rfl := Except.ok.inj h
    exact keepsDirs_adjust _

/-! ### Copies, links and directories -/

theorem keeping_bounded {α : Type} {x : ℕ → Proc α} (hx : ∀ n, Keeping KeepsDirs (x n)) :
    Keeping KeepsDirs (bounded x) := fun host n s => hx n host n s

theorem keeping_unfinished {α : Type} : Keeping KeepsDirs (unfinished : Proc α) := fun _ _ _ =>
  ⟨fun _ _ => trivial, trivial⟩

theorem keeping_fwrite (bytes : CString) (stream : Option ℕ) :
    Keeping KeepsDirs (fwrite bytes stream) :=
  within_withStream fun k f => within_step fun host s => by
    unfold Machine.writeTo
    split
    · exact keepsDirs_adjust (withContent_directory _)
    · exact onFiles_of_same rfl

theorem keeping_fopenWrite (path : CString) : Keeping KeepsDirs (fopenWrite path) := by
  refine within_bind (within_step fun host s => ?_) fun o => ?_
  · rcases host.fault s.calls with _ | e
    · rcases hopen : s.fs.openWrite s.cwd path (host.masked 511 438) host.uid host.gid
        with e | ⟨p, fs⟩
      · exact onFiles_of_same rfl
      · exact keepsDirs_openWrite hopen
    · exact onFiles_of_same rfl
  · rcases o with _ | p
    · exact within_pure _
    · exact within_bind (keeping_of_calm (calm_openStream p)) fun _ => within_pure _

theorem keeping_writeOut (out : Option ℕ) (k : ℕ) (buf : CString) :
    Keeping KeepsDirs (writeOut out k buf) := by
  induction k generalizing buf with
  | zero => exact keeping_unfinished
  | succ k ih =>
    refine within_ite (within_pure _) ?_
    refine within_bind (keeping_fwrite _ _) fun w => within_ite ?_ (ih _)
    refine within_bind (keeping_of_calm (calm_feof _)) fun _ =>
      within_ite (within_pure _) ?_
    exact within_bind (keeping_of_calm (calm_ferror _)) fun _ =>
      within_ite (within_pure _) (ih _)

theorem keeping_copyLoop (inp out : Option ℕ) (k : ℕ) : Keeping KeepsDirs (copyLoop inp out k) := by
  induction k with
  | zero => exact keeping_unfinished
  | succ k ih =>
    refine within_bind (keeping_of_calm (calm_fread _ _)) fun buf =>
      within_bind (keeping_of_calm (calm_feof _)) fun _ =>
        within_ite (within_pure _) ?_
    refine within_bind (keeping_of_calm (calm_ferror _)) fun _ =>
      within_ite (within_pure _) ?_
    exact within_bind (keeping_bounded fun n => keeping_writeOut _ _ _) fun _ =>
      within_ite ih (within_pure _)

theorem keeping_copyFailed (fdSrc fdDst : Option ℕ) (dstTmp : CString) (message : String) :
    Keeping KeepsDirs (copyFailed fdSrc fdDst dstTmp message) :=
  within_bind (keeping_of_calm (calm_fclose _)) fun _ =>
    within_bind (keeping_of_calm (calm_fclose _)) fun _ =>
      within_bind (keeping_change fun _ _ _ => keepsDirs_unlink) fun _ => keeping_fail _ _

theorem keeping_copyWritten (fdSrc fdDst : Option ℕ) (dstTmp dst : CString) (uid gid mode : ℕ) :
    Keeping KeepsDirs (copyWritten fdSrc fdDst dstTmp dst uid gid mode) := by
  have hstep : ∀ {x : Proc Bool} {y : Proc Unit} {message : String}, Keeping KeepsDirs x →
      Keeping KeepsDirs y → Keeping KeepsDirs (x >>= fun ok =>
        if !ok then copyFailed fdSrc fdDst dstTmp message else y) := fun hx hy =>
    within_bind hx fun _ => within_ite (keeping_copyFailed _ _ _ _) hy
  refine hstep (keeping_of_calm (calm_fflush _)) ?_
  refine hstep (keeping_change fun _ _ _ => keepsDirs_chmod) ?_
  refine hstep (keeping_change fun _ _ _ => keepsDirs_chown) ?_
  refine hstep (keeping_of_calm (calm_fclose _)) ?_
  refine hstep (keeping_of_calm (calm_fclose _)) ?_
  exact hstep (keeping_change fun _ _ _ => keepsDirs_rename) (within_pure _)

theorem keeping_fileCopy (src dst : CString) (uid gid mode : ℕ) :
    Keeping KeepsDirs (fileCopy src dst uid gid mode) := by
  refine within_bind (keeping_doing _) fun _ => ?_
  rcases snprintf maxPathLen (dst ++ ".tmp".toList) with _ | dstTmp
  · exact keeping_fail _ _
  refine within_bind (keeping_of_calm (calm_fopenRead _)) fun fdSrc =>
    within_ite (keeping_fail _ _) ?_
  refine within_bind (keeping_fopenWrite _) fun fdDst => within_ite (keeping_copyFailed _ _ _ _) ?_
  refine within_bind (keeping_bounded (keeping_copyLoop _ _)) fun o => ?_
  rcases o with _ | message
  · exact keeping_copyWritten _ _ _ _ _ _ _
  · exact keeping_copyFailed _ _ _ _

theorem keeping_instCopy : Keeping KeepsDirs (instCopy ins dryrun) := by
  refine within_bind (keeping_of_calm (calm_uidgidLookup _ _)) fun ids => ?_
  refine within_bind (keeping_of_calm (calm_deref _)) fun src => ?_
  refine within_bind (keeping_of_calm (calm_deref _)) fun dst => ?_
  refine within_bind (keeping_of_calm (calm_fileSize _)) fun _ => ?_
  exact within_ite (keeping_fileCopy _ _ _ _ _) (within_pure _)

theorem keeping_instLink : Keeping KeepsDirs (instLink ins dryrun) := by
  refine within_bind (keeping_of_calm (calm_query _)) fun o => ?_
  rcases o with _ | cwd
  · exact keeping_fail _ _
  refine within_bind (keeping_of_calm (calm_deref _)) fun dir => ?_
  refine within_bind (keeping_chdir _) fun _ => within_ite (keeping_fail _ _) ?_
  refine within_ite (keeping_restoreCwd _) ?_
  refine within_bind (keeping_of_calm (calm_deref _)) fun src => ?_
  refine within_bind (keeping_of_calm (calm_deref _)) fun dst => ?_
  refine within_bind (keeping_doing _) fun _ => ?_
  refine within_bind (keeping_change fun _ _ _ => keepsDirs_symlink) fun _ => ?_
  exact within_bind (keeping_restoreCwd _) fun _ => within_ite (keeping_fail _ _) (within_pure _)

theorem keeping_rmkdirLoop (perm k : ℕ) (buf rest : CString) :
    Keeping KeepsDirs (rmkdirLoop perm k buf rest) := by
  induction k generalizing buf rest with
  | zero => exact keeping_unfinished
  | succ k ih =>
    refine within_ite (within_pure _) (within_ite (within_pure _) ?_)
    refine within_bind (within_bind within_get fun _ => ?_) fun _ =>
      within_bind within_get fun _ => within_ite (within_pure _) (ih _ _)
    refine within_bind (keeping_change fun _ _ _ => keepsDirs_mkdir) fun _ => ?_
    exact within_bind within_get fun _ => within_bind (within_note trivial) fun _ => within_pure _

theorem keeping_instMkdir : Keeping KeepsDirs (instMkdir ins dryrun) := by
  refine within_bind (keeping_of_calm (calm_uidgidLookup _ _)) fun ids => ?_
  refine within_bind (keeping_of_calm (calm_deref _)) fun dir => ?_
  refine within_ite (within_bind (within_bind (keeping_doing _) fun _ => ?_) fun _ => ?_)
    (within_pure _)
  · refine within_ite ?_ (keeping_rmkdirLoop _ _ _ _)
    exact within_bind (keeping_modify fun _ => rfl) fun _ => within_pure _
  · refine within_ite (keeping_fail _ _) ?_
    exact within_bind (keeping_change fun _ _ _ => keepsDirs_chown) fun _ =>
      within_ite (keeping_fail _ _) (within_pure _)

theorem keeping_install (ins : InstallItem Ptr) : Keeping KeepsDirs (install ins dryrun) := by
  refine keeping_processed (calm_installTrans _ _) fun ins => ?_
  obtain ⟨op, src, dst, dir, owner, group, perm⟩ := ins
  cases op with
  | copy => exact keeping_instCopy
  | copyExec => exact keeping_instCopy
  | symlink => exact keeping_instLink
  | mkdir => exact keeping_instMkdir
  | liblink => exact keeping_instLink

end Directories

/-! ### Each program in its direction -/

/-- What a run of a program does not do to the files. -/
def Conserves : Tool → FileSys → FileSys → Prop
  | .installer _, fs, fs' => KeepsDirs fs fs'
  | .deinstaller _, fs, fs' => OnlyRemoved fs fs'
  | .instchk, fs, fs' => fs' = fs

/-- **Each program changes the files in one direction**, on any host and in any run. -/
theorem conserves (tool : Tool) (insthier : List (InstallItem CString)) (host : Host) (n : ℕ)
    (s : Machine) (code : ℕ) (t : Machine)
    (hrun : (tool.main insthier host n s).ending = .done code t) : Conserves tool s.fs t.fs := by
  have hmain : ∀ {F : FileSys → FileSys → Prop} [IsPreorder FileSys F],
      (∀ ins, Keeping F (tool.process ins)) → F s.fs t.fs := by
    intro F _ hprocess
    obtain ⟨-, hend⟩ := keeping_main hprocess insthier host n s
    rw [hrun] at hend
    exact hend
  cases tool with
  | installer dryrun => exact hmain (F := KeepsDirs) fun ins => keeping_install ins
  | deinstaller dryrun => exact hmain (F := OnlyRemoved) fun ins => removing_deinstall ins
  | instchk => exact (hmain (F := Eq) fun ins => keeping_installCheck ins).symm

/-- The deinstaller takes the directory `lib` away, and finds no link in it. -/
theorem conserves_lib :
    let run := Programs.deinstaller [libLink, { libLink with op := .mkdir }] false Host.quiet 1
      (Machine.initial suffixFiles [])
    ∃ t, run.ending = .done 0 t ∧ OnlyRemoved suffixFiles t.fs := by
  intro run
  have hstatus : exitStatus run.ending = some 0 := by decide +kernel
  obtain ⟨t, hrun⟩ := exitStatus_eq_some.mp hstatus
  exact ⟨t, hrun, conserves (.deinstaller false) _ Host.quiet 1 (Machine.initial suffixFiles []) 0 t
    hrun⟩

end LuaAdaLoad.Install.Conserved
