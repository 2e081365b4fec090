import LuaAdaLoad.Install.Courses

/-!
# The table of the package

The table `insthier` lists what the package installs: five directories, copies of its files, and a
program. None of its items is a link, none has a library name, and every name has a base name: such
an item never ends with `INSTALL_STATUS_FATAL` (`Sturdy`), whatever the calls do. So once they have
read the suffix file, all three programs go through the whole table (`insthier_whole`).
-/

namespace LuaAdaLoad.Install.Insthier

open LuaAdaLoad.Control.Actions LuaAdaLoad.Control.Weakest LuaAdaLoad.Control.Frames
open LuaAdaLoad.System.Paths LuaAdaLoad.Install.Posix LuaAdaLoad.Install.Translation
open LuaAdaLoad.Install.Operators LuaAdaLoad.Install.Programs LuaAdaLoad.Install.Calls
open LuaAdaLoad.Install.Effects LuaAdaLoad.Install.Courses
open LuaAdaLoad.Install.Verdict (labelled_trans inner_fileCheck)
open LuaAdaLoad.Install.StartingDirectory (Inner Any calm_uidgidLookup inner_of_ofWork within_doing
  exitStatus exitStatus_eq_some suffixFiles)

/-! ### The table -/

/-- The directories of `ctxt.h`. -/
structure Ctxt where
  bindir : CString
  dlibdir : CString
  slibdir : CString
  incdir : CString
  repos : CString

/-- `insthier`. -/
def insthier (c : Ctxt) : List (InstallItem CString) := [
  ⟨.mkdir, none, none, some c.bindir, none, none, 0o755⟩,
  ⟨.mkdir, none, none, some c.incdir, none, none, 0o755⟩,
  ⟨.mkdir, none, none, some c.dlibdir, none, none, 0o755⟩,
  ⟨.mkdir, none, none, some c.slibdir, none, none, 0o755⟩,
  ⟨.mkdir, none, none, some c.repos, none, none, 0o755⟩,
  ⟨.copy, some "lua-ada-load-conf.c".toList, none, some c.repos, none, none, 0o644⟩,
  ⟨.copy, some "lua-load.ads".toList, none, some c.repos, none, none, 0o644⟩,
  ⟨.copy, some "lua-load.ads".toList, none, some c.incdir, none, none, 0o644⟩,
  ⟨.copy, some "lua-load.adb".toList, none, some c.repos, none, none, 0o644⟩,
  ⟨.copy, some "lua-load.adb".toList, none, some c.incdir, none, none, 0o644⟩,
  ⟨.copy, some "lua-load.ali".toList, none, some c.repos, none, none, 0o644⟩,
  ⟨.copy, some "lua-load.ali".toList, none, some c.incdir, none, none, 0o444⟩,
  ⟨.copy, some "lua-load.sld".toList, none, some c.repos, none, none, 0o644⟩,
  ⟨.copy, some "lua-load.a".toList, some "liblua-load.a".toList, some c.slibdir, none, none, 0o644⟩,
  ⟨.copy, some "lua-ada-load-conf.ld".toList, none, some c.repos, none, none, 0o644⟩,
  ⟨.copyExec, some "lua-ada-load-conf".toList, none, some c.bindir, none, none, 0o755⟩]

/-! ### Items that are never fatal -/

/-- No item ends with FATAL. -/
def Bearable (_ : InstallItem CString) (status : Status) : Prop := status ≠ .fatal

/-- The names of a copy are there, none is a library name, and the file has a base name. -/
def Sturdy (item : InstallItem CString) : Prop :=
  match item.op with
  | .copy | .copyExec => item.dir ≠ none ∧ item.src ≠ none ∧
      isLibrary (item.src.getD []) = false ∧
      isLibrary (item.dst.getD (item.src.getD [])) = false ∧
      baseNameOf (item.dst.getD (item.src.getD [])) ≠ none
  | .mkdir => True
  | .symlink | .liblink => False

variable {host : Host} {n : ℕ} {h : List Event} {s : Machine} {α : Type}

/-- Whatever happens, it does not end with FATAL. -/
def milderPost : Post Failure Machine Event α where
  done _ _ _ := True
  raised e _ _ := e.status ≠ .fatal
  stopped _ := True

theorem milder_of_erring {E : Event → Prop} {R : Machine → Machine → Prop} {x : Proc α}
    (hx : Within E Erring R x) : wp host n id x milderPost h s := by
  refine wp_mono hx.wp (fun _ _ _ _ => trivial) ?_ fun _ _ => trivial
  rintro e h' t ⟨herror, -⟩
  change e.status ≠ .fatal
  rw [show e.status = .error from herror]
  decide

/-! ### Translators -/

theorem wp_libraryName_plain {name : CString} {buf : Static} {Q : Post Failure Machine Event Ptr}
    (hname : isLibrary name = false) :
    wp host n id (libraryName (.text name) buf) Q h s ↔ Q.done (.text name) h s := by
  simp [libraryName, wp_bind, wp_load, Ptr.read, hname]

theorem wp_baseName_plain {name base : CString} {Q : Post Failure Machine Event (Option Ptr)}
    (hbase : baseNameOf name = some base) : wp host n id (baseName (.text name)) Q h s ↔
      Q.done (some (.static .baseNamePathBuf)) h (stored s .baseNamePathBuf base) := by
  simp [baseName, wp_bind, wp_load, Ptr.read, hbase, wp_store]

theorem wp_ntranCopy_milder {item : InstallItem CString} (hdir : item.dir ≠ none)
    (hsrc : item.src ≠ none) (hplain : isLibrary (item.src.getD []) = false)
    (hplain' : isLibrary (item.dst.getD (item.src.getD [])) = false)
    (hbase : baseNameOf (item.dst.getD (item.src.getD [])) ≠ none) :
    wp host n id (ntranCopy (loaded item)) milderPost h s := by
  obtain ⟨op, src, dst, dir, owner, group, perm⟩ := item
  obtain ⟨src, rfl⟩ := Option.ne_none_iff_exists'.mp hsrc
  obtain ⟨dir, rfl⟩ := Option.ne_none_iff_exists'.mp hdir
  obtain ⟨base, hbase⟩ := Option.ne_none_iff_exists'.mp hbase
  have hdst : (dst.map Ptr.text).getD (Ptr.text src) = Ptr.text (dst.getD src) := by
    cases dst <;> rfl
  simp only [ntranCopy, loaded, Option.map_some, hdst, wp_bind]
  refine (wp_libraryName_plain hplain).mpr ((wp_libraryName_plain hplain').mpr ?_)
  refine (wp_baseName_plain hbase).mpr (milder_of_erring (E := OfStream) (R := Still) ?_)
  refine within_bind (calm_load _) fun x => within_bind (calm_load _) fun y => ?_
  rcases snprintf maxPathLen (joined x y) with _ | path
  · exact within_erring
  · exact within_bind (calm_store _ _) fun _ => within_pure _

theorem wp_ntranCopyExec_milder {ins : InstallItem Ptr}
    (hcopy : wp host n id (ntranCopy ins) milderPost h s) :
    wp host n id (ntranCopyExec ins) milderPost h s := by
  rw [ntranCopyExec, wp_bind]
  refine wp_mono hcopy (fun ins h' t _ => ?_) (fun _ _ _ => id) fun _ => id
  refine milder_of_erring (E := OfStream) (R := Still) (within_bind within_get fun s => ?_)
  refine within_bind (calm_deref _) fun x => ?_
  rcases snprintf maxPathLen (x ++ s.execSuffix) with _ | src
  · exact within_erring
  refine within_bind (calm_store _ _) fun _ => within_bind (calm_deref _) fun y => ?_
  rcases snprintf maxPathLen (y ++ s.execSuffix) with _ | dst
  · exact within_erring
  · exact within_bind (calm_store _ _) fun _ => within_pure _

theorem wp_trans_milder {item : InstallItem CString} (hsturdy : Sturdy item) :
    wp host n id ((instchkOpers item.op).trans (loaded item)) milderPost h s := by
  unfold Sturdy at hsturdy
  cases hop : item.op with
  | copy =>
    rw [hop] at hsturdy
    obtain ⟨hdir, hsrc, hplain, hplain', hbase⟩ := hsturdy
    exact wp_ntranCopy_milder hdir hsrc hplain hplain' hbase
  | copyExec =>
    rw [hop] at hsturdy
    obtain ⟨hdir, hsrc, hplain, hplain', hbase⟩ := hsturdy
    exact wp_ntranCopyExec_milder (wp_ntranCopy_milder hdir hsrc hplain hplain' hbase)
  | symlink =>
    rw [hop] at hsturdy
    exact hsturdy.elim
  | mkdir => exact (wp_pure _).mpr trivial
  | liblink =>
    rw [hop] at hsturdy
    exact hsturdy.elim

/-! ### Operators -/

/-- It ends with ERROR at the worst. -/
abbrev Mild (x : Proc Unit) : Prop := Within Inner Erring Any x

theorem mild_of_steady {β : Type} {x : Proc β} (hx : Steady Erring x) : Within Inner Erring Any x :=
  hx.mono inner_of_ofWork (fun _ => id) fun _ _ _ => trivial

theorem mild_of_calm {β : Type} {x : Proc β} (hx : Calm Erring x) : Within Inner Erring Any x :=
  mild_of_steady (calm_steady hx)

theorem mild_instCopy (ins : InstallItem Ptr) (dryrun : Bool) : Mild (instCopy ins dryrun) := by
  refine within_bind (mild_of_calm (calm_uidgidLookup _ _)) fun ids => ?_
  refine within_bind (mild_of_calm (calm_deref _)) fun src => ?_
  refine within_bind (mild_of_calm (calm_deref _)) fun dst => ?_
  refine within_bind (mild_of_calm (calm_fileSize _)) fun _ => within_ite ?_ (within_pure _)
  obtain ⟨rest, hcopy, hrest⟩ := fileCopy_eq src dst ids.1 ids.2 ins.perm
  change Mild (fileCopy src dst ids.1 ids.2 ins.perm)
  rw [hcopy]
  exact within_bind (within_doing _) fun _ => mild_of_steady hrest

theorem mild_instMkdir (ins : InstallItem Ptr) (dryrun : Bool) : Mild (instMkdir ins dryrun) := by
  refine within_bind (mild_of_calm (calm_uidgidLookup _ _)) fun ids => ?_
  refine within_bind (mild_of_calm (calm_deref _)) fun dir => within_ite ?_ (within_pure _)
  refine within_bind (within_bind (within_doing _) fun _ => ?_) fun made => ?_
  · refine within_ite ?_ (mild_of_steady (steady_rmkdirLoop _ _ _ _))
    exact within_bind (within_modify fun _ => trivial) fun _ => within_pure _
  · refine within_ite within_erring ?_
    refine within_bind (mild_of_steady (steady_change _)) fun owned => ?_
    exact within_ite within_erring (within_pure _)

theorem mild_deinstCopy (ins : InstallItem Ptr) (dryrun : Bool) : Mild (deinstCopy ins dryrun) := by
  refine within_bind (mild_of_calm (calm_deref _)) fun dst => within_ite ?_ (within_pure _)
  refine within_bind (within_doing _) fun _ => ?_
  refine within_bind (mild_of_steady (steady_change _)) fun gone => ?_
  exact within_ite within_erring (within_pure _)

theorem mild_deinstMkdir (ins : InstallItem Ptr) (dryrun : Bool) :
    Mild (deinstMkdir ins dryrun) := by
  refine within_bind (mild_of_calm (calm_deref _)) fun dir => within_ite ?_ (within_pure _)
  refine within_bind (within_doing _) fun _ => ?_
  refine within_bind (mild_of_steady (steady_change _)) fun gone => ?_
  exact within_ite within_erring (within_pure _)

theorem mild_countedCheck (ins : InstallItem Ptr) (src dst : Option Ptr) (type : FileType) :
    Mild (countedCheck ins src dst type) := by
  refine within_bind (mild_of_calm (calm_uidgidLookup _ _)) fun ids => ?_
  refine within_bind (mild_of_calm (calm_deref _)) fun src => ?_
  refine within_bind (mild_of_calm (calm_deref _)) fun dst => ?_
  refine within_attempt (X := Erring) ?_ fun e he => ?_
  · exact (inner_fileCheck _ _ _ _ _ _).mono (fun _ => id) (fun _ => id) fun _ _ _ => trivial
  · exact within_bind (within_modify fun _ => trivial) fun _ => within_raise he

/-! ### Items -/

/-- The operation is none that changes the directory. -/
def Stays (op : InstOp) : Prop := op ≠ .symlink ∧ op ≠ .liblink

theorem Sturdy.stays {item : InstallItem CString} (h : Sturdy item) : Stays item.op := by
  unfold Sturdy at h
  unfold Stays
  cases hop : item.op with
  | symlink =>
    rw [hop] at h
    exact h.elim
  | liblink =>
    rw [hop] at h
    exact h.elim
  | _ => decide

/-- A table of operators that has the translators of the others, and operators that are mild. -/
theorem wp_processed_milder {item : InstallItem CString} (hsturdy : Sturdy item)
    {opers : InstOp → InstOper} {dryrun : Bool}
    (htrans : ∀ op, Stays op → (opers op).trans = (instchkOpers op).trans)
    (hoper : ∀ op ins, Stays op → Mild ((opers op).oper ins dryrun)) :
    wp host n id (processed opers (loaded item) dryrun) milderPost h s := by
  have hwp : wp host n id ((instchkOpers item.op).trans (loaded item)) milderPost h s :=
    wp_trans_milder hsturdy
  have hlabels := labelled_trans item.op (loaded item)
  rw [processed, wp_bind]
  change wp host n id ((opers item.op).trans (loaded item)) _ h s
  rw [htrans _ hsturdy.stays]
  refine wp_mono (wp_and_ending hwp) ?_ (fun _ _ _ h => h.1) fun _ => id
  rintro ins h' t ⟨-, hend⟩
  have hop : ins.op = item.op := (hlabels host n s ins t hend).op
  change wp host n id ((opers ins.op).oper ins dryrun) milderPost h' t
  rw [hop]
  exact milder_of_erring (hoper _ ins hsturdy.stays)

theorem wp_process_milder (tool : Tool) {item : InstallItem CString} (hsturdy : Sturdy item) :
    wp host n id (tool.process (loaded item)) milderPost h s := by
  cases tool with
  | installer dryrun =>
    refine wp_processed_milder hsturdy (fun op hop => ?_) fun op ins hop => ?_
    · cases op with
      | symlink => exact absurd rfl hop.1
      | liblink => exact absurd rfl hop.2
      | _ => rfl
    · cases op with
      | copy => exact mild_instCopy ins dryrun
      | copyExec => exact mild_instCopy ins dryrun
      | symlink => exact absurd rfl hop.1
      | mkdir => exact mild_instMkdir ins dryrun
      | liblink => exact absurd rfl hop.2
  | deinstaller dryrun =>
    refine wp_processed_milder hsturdy (fun op hop => ?_) fun op ins hop => ?_
    · cases op with
      | symlink => exact absurd rfl hop.1
      | liblink => exact absurd rfl hop.2
      | _ => rfl
    · cases op with
      | copy => exact mild_deinstCopy ins dryrun
      | copyExec => exact mild_deinstCopy ins dryrun
      | symlink => exact absurd rfl hop.1
      | mkdir => exact mild_deinstMkdir ins dryrun
      | liblink => exact absurd rfl hop.2
  | instchk =>
    refine wp_processed_milder hsturdy (fun _ _ => rfl) fun op ins hop => ?_
    cases op with
    | copy => exact mild_countedCheck ins _ _ _
    | copyExec => exact mild_countedCheck ins _ _ _
    | symlink => exact absurd rfl hop.1
    | mkdir => exact mild_countedCheck ins _ _ _
    | liblink => exact absurd rfl hop.2

/-- **A sturdy item never ends with FATAL.** -/
theorem mayEnd_sturdy (tool : Tool) {item : InstallItem CString} (hsturdy : Sturdy item) :
    MayEnd Bearable tool.process item := fun host n h s =>
  wp_mono (wp_process_milder tool hsturdy) (fun _ _ _ _ => by simp [Bearable]) (fun _ _ _ => id)
    fun _ => id

instance (item : InstallItem CString) : Decidable (Sturdy item) := by
  unfold Sturdy; split <;> infer_instance

theorem sturdy_insthier (c : Ctxt) : ∀ item ∈ insthier c, Sturdy item := by
  refine of_decide_eq_true ?_
  rfl

/-! ### Runs -/

/-- Each item of the table was started and ended, in this order, and none ended with FATAL. -/
def WentThrough (items : List (InstallItem CString)) (marks : List Mark) : Prop :=
  ∃ statuses : List Status, statuses.length = items.length ∧
    (∀ x ∈ items.zip statuses, x.2 ≠ .fatal) ∧
    marks = (items.zip statuses).flatMap fun x => [.started x.1, .finished x.1 x.2]

/-- **Every program goes through the whole table of the package**, if it can read the suffix file:
the exit status of the installer and the deinstaller says nothing else. -/
theorem insthier_whole {c : Ctxt} {tool : Tool} {code : ℕ} {t : Machine}
    (hrun : (tool.main (insthier c) host n s).ending = .done code t) :
    (code = 112 ↔ ∀ u, (installInit "conf-sosuffix" host n s).ending ≠ .done () u) ∧
      (code = 112 → marksOf (tool.main (insthier c) host n s).log = []) ∧
      (code ≠ 112 → (code = 0 ∨ tool = .instchk ∧ code = 1) ∧
        WentThrough (tool.order (insthier c)) (marksOf (tool.main (insthier c) host n s).log)) := by
  have hmay : ∀ item ∈ insthier c, MayEnd Bearable tool.process item := fun item hitem =>
    mayEnd_sturdy tool (sturdy_insthier c item hitem)
  rcases (takesCourse_of_may hmay).done code t hrun with
    ⟨⟨u, hinit⟩, finish, hcourse, hexits⟩ | ⟨hno, rfl, hmarks⟩
  · cases finish with
    | whole =>
      have hcode : code ≠ 112 := by
        rcases hexits with rfl | ⟨-, rfl⟩ <;> decide
      refine ⟨⟨fun h => absurd h hcode, fun hno => absurd hinit (hno u)⟩, fun h => absurd h hcode,
        fun _ => ⟨hexits, ?_⟩⟩
      obtain ⟨statuses, hlen, hall, hmarks⟩ := hcourse.whole
      exact ⟨statuses, hlen, fun x hx => (hall x hx).1, hmarks⟩
    | fatal => exact absurd rfl (hcourse.not_fatal fun item _ hmay => hmay rfl)
    | stopped => exact hexits.elim
  · exact ⟨⟨fun _ => hno, fun _ => rfl⟩, fun _ => hmarks, fun h => absurd rfl h⟩

/-- Directories in the working directory. -/
def sampleCtxt : Ctxt :=
  ⟨"bin".toList, "lib".toList, "lib".toList, "inc".toList, "repos".toList⟩

/-- Nothing can be copied, and the exit status is 0. -/
theorem insthier_whole_nothing : ∃ code t,
    ((Tool.installer false).main (insthier sampleCtxt) Host.quiet 1
      (Machine.initial suffixFiles [])).ending = .done code t ∧
    WentThrough (insthier sampleCtxt) (marksOf ((Tool.installer false).main (insthier sampleCtxt)
      Host.quiet 1 (Machine.initial suffixFiles [])).log) := by
  have hstatus : exitStatus ((Tool.installer false).main (insthier sampleCtxt) Host.quiet 1
      (Machine.initial suffixFiles [])).ending = some 0 := by decide +kernel
  obtain ⟨t, hrun⟩ := exitStatus_eq_some.mp hstatus
  exact ⟨0, t, hrun, ((insthier_whole hrun).2.2 (by decide)).2⟩

end LuaAdaLoad.Install.Insthier
