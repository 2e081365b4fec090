import LuaAdaLoad.Install.Effects
import LuaAdaLoad.Install.Programs
import LuaAdaLoad.System.Walks

/-!
# The starting directory

Of all operators only `inst_link` changes the working directory. It comes back to where it started,
or the program ends with `INSTALL_STATUS_FATAL` (`tidy_instLink`). So every item is processed in the
directory in which the program started, and a dry run leaves the files alone (`started_in_place`).
-/

namespace LuaAdaLoad.Install.StartingDirectory

open LuaAdaLoad.Control.Actions LuaAdaLoad.Control.Weakest LuaAdaLoad.Control.Frames
open LuaAdaLoad.System.Paths LuaAdaLoad.System.FileSystem LuaAdaLoad.System.Walks
open LuaAdaLoad.Install.Posix LuaAdaLoad.Install.Translation LuaAdaLoad.Install.Operators
open LuaAdaLoad.Install.Calls LuaAdaLoad.Install.Effects LuaAdaLoad.Install.Programs

/-- The event tells of what is done for one item. -/
def Inner : Event → Prop
  | .started _ _ => False
  | .finished _ _ _ => False
  | .reported _ _ => False
  | _ => True

theorem inner_of_ofWork (e : Event) (h : OfWork e) : Inner e := by
  cases e with
  | started item s => exact h
  | finished item status s => exact h
  | reported failed total => exact h
  | _ => trivial

theorem inner_of_ofStream (e : Event) (h : OfStream e) : Inner e :=
  inner_of_ofWork e (ofWork_of_ofStream e h)

/-- All failures are possible. -/
def AnyFailure (_ : Failure) : Prop := True

/-- All states are related. -/
def Any (_ _ : Machine) : Prop := True

instance : IsPreorder Machine Any where
  refl _ := trivial
  trans _ _ _ _ _ := trivial

/-- The working directory is the same unless the program has to end, and the files are the same in a
dry run. -/
def placePost (dryrun : Bool) (s : Machine) : Post Failure Machine Event Unit where
  done _ _ t := t.cwd = s.cwd ∧ (dryrun = true → t.fs = s.fs)
  raised e _ t := (e.status ≠ .fatal → t.cwd = s.cwd) ∧ (dryrun = true → t.fs = s.fs)
  stopped _ := True

/-- An operator or a whole item that keeps its place. -/
structure Tidy (dryrun : Bool) (x : Proc Unit) : Prop where
  inner : Within Inner AnyFailure Any x
  place : ∀ host n h s, wp host n id x (placePost dryrun s) h s

variable {host : Host} {n : ℕ} {h : List Event} {s : Machine} {dryrun : Bool} {x : Proc Unit}
variable {X : Failure → Prop}

theorem tidy_of_placed (hx : Within Inner X Placed x) : Tidy false x where
  inner := hx.mono (fun _ => id) (fun _ _ => trivial) fun _ _ _ => trivial
  place host n h s := by
    obtain ⟨-, hend⟩ := hx host n s
    unfold wp
    rcases hrun : (x host n s).ending with ⟨a, t⟩ | ⟨e, t⟩ | _ | _ <;> rw [hrun] at hend
    · exact ⟨hend.cwd, by simp⟩
    · exact ⟨fun _ => hend.2.cwd, by simp⟩
    · trivial
    · trivial

theorem tidy_of_still (hx : Within Inner AnyFailure Still x) : Tidy dryrun x where
  inner := hx.mono (fun _ => id) (fun _ => id) fun _ _ _ => trivial
  place host n h s := by
    obtain ⟨-, hend⟩ := hx host n s
    unfold wp
    rcases hrun : (x host n s).ending with ⟨a, t⟩ | ⟨e, t⟩ | _ | _ <;> rw [hrun] at hend
    · exact ⟨hend.cwd, fun _ => hend.fs⟩
    · exact ⟨fun _ => hend.2.cwd, fun _ => hend.2.fs⟩
    · trivial
    · trivial

/-! ### Operators that stay -/

theorem steady_inner {α : Type} {x : Proc α} (hx : Steady X x) : Within Inner AnyFailure Placed x :=
  hx.mono inner_of_ofWork (fun _ _ => trivial) fun _ _ => id

theorem calm_inner {α : Type} {x : Proc α} (hx : Calm X x) : Within Inner AnyFailure Still x :=
  hx.mono inner_of_ofStream (fun _ _ => trivial) fun _ _ => id

theorem refused_of_erring (e : Failure) (h : Erring e) : Refused e := fun hok =>
  absurd (h.symm.trans hok) (by decide)

theorem steady_refused {α : Type} {x : Proc α} (hx : Steady Erring x) :
    Within Inner Refused Placed x :=
  hx.mono inner_of_ofWork refused_of_erring fun _ _ => id

theorem within_doing {R : Machine → Machine → Prop} [IsPreorder Machine R] (d : Deed) :
    Within Inner X R (doing d) :=
  within_bind within_get fun _ => within_note trivial

theorem calm_uidgidLookup (user group : Option CString) :
    Calm Erring (uidgidLookup user group) := by
  refine within_bind (within_bind within_ask fun _ => within_pure _) fun uid => ?_
  rcases uid with _ | uid
  · exact within_erring
  refine within_bind (within_bind within_ask fun _ => within_pure _) fun gid => ?_
  rcases gid with _ | gid
  · exact within_erring
  · exact within_pure _

theorem placed_instCopy (ins : InstallItem Ptr) :
    Within Inner Refused Placed (instCopy ins false) := by
  refine within_bind (steady_refused (calm_steady (calm_uidgidLookup _ _))) fun ids => ?_
  refine within_bind (steady_refused (calm_steady (calm_deref _))) fun src => ?_
  refine within_bind (steady_refused (calm_steady (calm_deref _))) fun dst => ?_
  refine within_bind (steady_refused (calm_steady (calm_fileSize _))) fun _ => ?_
  obtain ⟨rest, hcopy, hrest⟩ := fileCopy_eq src dst ids.1 ids.2 ins.perm
  change Within Inner Refused Placed (fileCopy src dst ids.1 ids.2 ins.perm)
  rw [hcopy]
  exact within_bind (within_doing _) fun _ => steady_refused hrest

theorem tidy_instCopy (ins : InstallItem Ptr) : Tidy dryrun (instCopy ins dryrun) := by
  cases dryrun with
  | true =>
    refine tidy_of_still (calm_inner (X := Erring) ?_)
    refine within_bind (calm_uidgidLookup _ _) fun ids => within_bind (calm_deref _) fun src => ?_
    refine within_bind (calm_deref _) fun dst => within_bind (calm_fileSize _) fun _ => ?_
    exact within_pure _
  | false => exact tidy_of_placed (placed_instCopy ins)

theorem placed_instMkdir (ins : InstallItem Ptr) :
    Within Inner Refused Placed (instMkdir ins false) := by
  refine within_bind (steady_refused (calm_steady (calm_uidgidLookup _ _))) fun ids => ?_
  refine within_bind (steady_refused (calm_steady (calm_deref _))) fun dir => ?_
  refine within_bind (within_bind (within_doing _) fun _ => ?_) fun made => ?_
  · refine within_ite ?_ (steady_refused (steady_rmkdirLoop _ _ _ _))
    exact within_bind (within_modify fun _ => ⟨rfl, rfl, rfl, rfl⟩) fun _ => within_pure _
  · refine within_ite (within_refused (by decide)) ?_
    refine within_bind (steady_refused (steady_change _)) fun owned => ?_
    exact within_ite (within_refused (by decide)) (within_pure _)

theorem tidy_instMkdir (ins : InstallItem Ptr) : Tidy dryrun (instMkdir ins dryrun) := by
  cases dryrun with
  | true =>
    refine tidy_of_still (calm_inner (X := Erring) ?_)
    refine within_bind (calm_uidgidLookup _ _) fun ids => within_bind (calm_deref _) fun dir => ?_
    exact within_pure _
  | false => exact tidy_of_placed (placed_instMkdir ins)

/-- A deed of the deinstaller. -/
theorem within_deinst {d : Deed} {g : Host → Machine → Except Errno FileSys} {message : String} :
    Within Inner AnyFailure Placed (do
      doing d
      let gone ← change g
      if !gone then
        fail .error message) := by
  refine within_bind (within_doing _) fun _ => ?_
  refine within_bind (steady_inner (X := Erring) (steady_change _)) fun gone => ?_
  exact within_ite (within_raise trivial) (within_pure _)

theorem tidy_deinstCopy (ins : InstallItem Ptr) : Tidy dryrun (deinstCopy ins dryrun) := by
  cases dryrun with
  | true =>
    exact tidy_of_still
      (calm_inner (X := Erring) (within_bind (calm_deref _) fun _ => within_pure _))
  | false =>
    refine tidy_of_placed
      (within_bind (steady_inner (X := Erring) (calm_steady (calm_deref _))) fun dst => ?_)
    exact within_deinst

theorem tidy_deinstLink (ins : InstallItem Ptr) : Tidy dryrun (deinstLink ins dryrun) := by
  cases dryrun with
  | true =>
    refine tidy_of_still (calm_inner (X := Erring) ?_)
    exact within_bind (calm_deref _) fun _ => within_bind (calm_deref _) fun _ => within_pure _
  | false =>
    refine tidy_of_placed
      (within_bind (steady_inner (X := Erring) (calm_steady (calm_deref _))) fun dir => ?_)
    refine within_bind (steady_inner (X := Erring) (calm_steady (calm_deref _))) fun dst => ?_
    simp only [Bool.not_false, if_true]
    rcases snprintf maxPathLen (joined dir dst) with _ | path
    · exact within_raise trivial
    · exact within_deinst

theorem tidy_deinstMkdir (ins : InstallItem Ptr) : Tidy dryrun (deinstMkdir ins dryrun) := by
  cases dryrun with
  | true =>
    exact tidy_of_still
      (calm_inner (X := Erring) (within_bind (calm_deref _) fun _ => within_pure _))
  | false =>
    refine tidy_of_placed
      (within_bind (steady_inner (X := Erring) (calm_steady (calm_deref _))) fun dir => ?_)
    exact within_deinst

/-! ### The operator that comes back -/

theorem directory_absolutePath {t : Machine} {p q : Place} (hp : IsDir (t.fs.node p))
    (h : t.directory (absolutePath p) = .ok q) : q = p := by
  unfold Machine.directory at h
  rw [follow_absolutePath t.cwd hp] at h
  simp only [hp, if_true] at h
  exact (Except.ok.inj h).symm

/-- Back in the directory that `getcwd` told. -/
theorem wp_restoreCwd {p : Place} {Q : Post Failure Machine Event Unit}
    (hp : IsDir (s.fs.node p)) (hdone : ∀ t, t.fs = s.fs → t.cwd = p → Q.done () h t)
    (hfail : ∀ e t, t.fs = s.fs → e.status = .fatal → Q.raised e h t) :
    wp host n id (restoreCwd (absolutePath p)) Q h s := by
  rw [restoreCwd, wp_bind]
  refine wp_chdir (fun e _ => ?_) fun q hq => ?_
  · simp only [Bool.not_false, if_true, wp_fail]
    exact hfail _ _ rfl rfl
  · simp only [Bool.not_true, Bool.false_eq_true, if_false, wp_pure]
    exact hdone _ rfl (directory_absolutePath hp hq)

theorem symlink_keeps {fs fs' : FileSys} {cwd : Place} {target path : CString} {uid gid : ℕ}
    (h : fs.symlink cwd target path uid gid = .ok fs') : Keeps fs fs' := by
  unfold FileSys.symlink at h
  split_ifs at h
  rcases hloc : fs.locate cwd path with _ | t <;> rw [hloc] at h
  · exact absurd h (by simp)
  · simp only at h
    split_ifs at h with hnew
    obtain rfl := Except.ok.inj h
    exact keeps_put hnew

/-- A frame of `inst_link`: a relation that a change of the directory keeps. -/
theorem within_instLink {R : Machine → Machine → Prop} [IsPreorder Machine R]
    (hplaced : ∀ s t, Placed s t → R s t) (hcwd : ∀ (s : Machine) p, R s { s with cwd := p })
    (ins : InstallItem Ptr) : Within Inner Refused R (instLink ins dryrun) := by
  have hsteady : ∀ {α : Type} {x : Proc α}, Steady Erring x → Within Inner Refused R x := fun hx =>
    (steady_refused hx).mono (fun _ => id) (fun _ => id) hplaced
  have hchdir : ∀ path, Within Inner Refused R (chdir path) := fun path =>
    within_bind (hsteady (calm_steady (calm_query _))) fun o => by
      rcases o with _ | p
      · exact within_pure _
      · exact within_bind (within_modify fun s => hcwd s p) fun _ => within_pure _
  have hback : ∀ cwd, Within Inner Refused R (restoreCwd cwd) := fun cwd =>
    within_bind (hchdir cwd) fun _ => within_ite (within_refused (by decide)) (within_pure _)
  refine within_bind (hsteady (calm_steady (calm_query _))) fun o => ?_
  rcases o with _ | cwd
  · exact within_refused (by decide)
  refine within_bind (hsteady (calm_steady (calm_deref _))) fun dir => ?_
  refine within_bind (hchdir dir) fun changed => within_ite (within_refused (by decide)) ?_
  refine within_ite (hback cwd) ?_
  refine within_bind (hsteady (calm_steady (calm_deref _))) fun src => ?_
  refine within_bind (hsteady (calm_steady (calm_deref _))) fun dst => ?_
  refine within_bind (within_doing _) fun _ => ?_
  refine within_bind (hsteady (steady_change _)) fun linked => ?_
  exact within_bind (hback cwd) fun _ => within_ite (within_refused (by decide)) (within_pure _)

/-- **`inst_link` comes back**, or the program has to end. -/
theorem tidy_instLink (ins : InstallItem Ptr) : Tidy dryrun (instLink ins dryrun) where
  inner := (within_instLink (R := Any) (fun _ _ _ => trivial) (fun _ _ => trivial) ins).mono
    (fun _ => id) (fun _ _ => trivial) fun _ _ => id
  place host n h s := by
    rw [instLink, wp_bind]
    refine wp_query (fun e _ => ?_) fun cwd hcwd => ?_
    · simp only [wp_fail]
      exact ⟨fun _ => rfl, fun _ => rfl⟩
    split_ifs at hcwd with hno hlen
    obtain rfl := Except.ok.inj hcwd
    simp only [wp_bind]
    refine wp_deref (fun _ => trivial) fun dir _ => ?_
    refine wp_chdir (fun e _ => ?_) fun p _ => ?_
    · simp only [Bool.not_false, if_true, wp_fail]
      exact ⟨fun _ => rfl, fun _ => rfl⟩
    simp only [Bool.not_true, Bool.false_eq_true, if_false]
    cases dryrun with
    | true =>
      simp only [if_true]
      refine wp_restoreCwd hno (fun t hfs hp => ⟨hp, fun _ => hfs⟩) fun e t hfs hfatal => ?_
      exact ⟨fun hne => absurd hfatal hne, fun _ => hfs⟩
    | false =>
      simp only [Bool.false_eq_true, if_false, wp_bind]
      refine wp_deref (fun _ => trivial) fun src _ => wp_deref (fun _ => trivial) fun dst _ => ?_
      simp only [wp_doing]
      refine wp_change (fun e _ => ?_) fun fs hfs => ?_
      · refine wp_restoreCwd hno (fun t _ hp => ?_) fun e t _ hfatal => ?_
        · simp only [Bool.not_false, if_true, wp_fail]
          exact ⟨fun _ => hp, by simp⟩
        · exact ⟨fun hne => absurd hfatal hne, by simp⟩
      · refine wp_restoreCwd ((symlink_keeps hfs).isDir hno) (fun t _ hp => ?_) fun e t _ hfatal => ?_
        · simp only [Bool.not_true, Bool.false_eq_true, if_false, wp_pure]
          exact ⟨hp, by simp⟩
        · exact ⟨fun hne => absurd hfatal hne, by simp⟩

/-! ### Items -/

theorem tidy_processed {opers : InstOp → InstOper} {ins : InstallItem Ptr}
    (htrans : Calm Refused ((opers ins.op).trans ins))
    (hoper : ∀ ins', Tidy dryrun ((opers ins'.op).oper ins' dryrun)) :
    Tidy dryrun (processed opers ins dryrun) where
  inner := within_bind ((calm_inner htrans).mono (fun _ => id) (fun _ => id) fun _ _ _ => trivial)
    fun ins' => (hoper ins').inner
  place host n h s := by
    rw [processed, wp_bind]
    refine wp_mono htrans.wp ?_ ?_ fun _ _ => trivial
    · rintro ins' h' t ⟨hstill, -⟩
      have hplace := (hoper ins').place host n h' t
      unfold placePost at hplace ⊢
      rwa [hstill.cwd, hstill.fs] at hplace
    · rintro e h' t ⟨-, hstill, -⟩
      exact ⟨fun _ => hstill.cwd, fun _ => hstill.fs⟩

theorem tidy_install (ins : InstallItem Ptr) : Tidy dryrun (install ins dryrun) := by
  refine tidy_processed (calm_installTrans _ _) fun ins' => ?_
  rcases ins'.op
  · exact tidy_instCopy ins'
  · exact tidy_instCopy ins'
  · exact tidy_instLink ins'
  · exact tidy_instMkdir ins'
  · exact tidy_instLink ins'

theorem tidy_deinstall (ins : InstallItem Ptr) : Tidy dryrun (deinstall ins dryrun) := by
  refine tidy_processed ?_ fun ins' => ?_
  · have hcalm := calm_installTrans ins.op ins
    rcases hop : ins.op <;> rw [hop] at hcalm <;> exact hcalm
  · rcases ins'.op
    · exact tidy_deinstCopy ins'
    · exact tidy_deinstCopy ins'
    · exact tidy_deinstLink ins'
    · exact tidy_deinstMkdir ins'
    · exact tidy_deinstLink ins'

/-! ### The table -/

/-- Every item so far was started in that directory. -/
def StartedIn (cwd : Place) (h : List Event) : Prop :=
  ∀ item u, Event.started item u ∈ h → u.cwd = cwd

theorem StartedIn.append {cwd : Place} {l : List Event} (hh : StartedIn cwd h)
    (hl : ∀ e ∈ l, Inner e) : StartedIn cwd (h ++ l) := fun item u hmem => by
  rcases List.mem_append.mp hmem with hmem | hmem
  · exact hh item u hmem
  · exact absurd (hl _ hmem) id

/-- Every item was started in that directory, the working directory is the same unless the program
has to end, and the files are the same in a dry run. -/
def tablePost (dryrun : Bool) (fs : FileSys) (cwd : Place) :
    Post Failure Machine Event Bool where
  done ok h' t := StartedIn cwd h' ∧ (ok = true → t.cwd = cwd) ∧ (dryrun = true → t.fs = fs)
  raised _ _ _ := False
  stopped h' := StartedIn cwd h'

theorem StartedIn.item {cwd : Place} {l : List Event} (item : InstallItem CString)
    (hh : StartedIn cwd h) (hs : s.cwd = cwd) (hl : ∀ e ∈ l, Inner e) :
    StartedIn cwd (h ++ [.started item s] ++ l) := by
  refine StartedIn.append (fun item' u hmem => ?_) hl
  rcases List.mem_append.mp hmem with hmem | hmem
  · exact hh item' u hmem
  · obtain ⟨-, rfl⟩ := Event.started.inj (List.mem_singleton.mp hmem)
    exact hs

theorem StartedIn.finished {cwd : Place} (hh : StartedIn cwd h) (item : InstallItem CString)
    (status : Status) (t : Machine) : StartedIn cwd (h ++ [.finished item status t]) := by
  intro item' u hmem
  rcases List.mem_append.mp hmem with hmem | hmem
  · exact hh item' u hmem
  · simp at hmem

theorem wp_eachItem_started {process : InstallItem Ptr → Proc Unit}
    (hproc : ∀ ins, Tidy dryrun (process ins)) (items : List (InstallItem CString))
    (hh : StartedIn s.cwd h) :
    wp host n id (eachItem process items) (tablePost dryrun s.fs s.cwd) h s := by
  refine wp_eachItem (I := fun _ h t => StartedIn s.cwd h ∧ t.cwd = s.cwd ∧
    (dryrun = true → t.fs = s.fs)) ⟨hh, rfl, fun _ => rfl⟩ ?_ ?_
  · exact fun h t ⟨hh, hcwd, hfs⟩ => ⟨hh, fun _ => hcwd, hfs⟩
  · rintro pre item post h t - ⟨hh, hcwd, hfs⟩
    refine wp_mono ((hproc _).inner.wp_and ((hproc _).place host n _ t)) ?_ ?_ ?_
    · rintro _ h' u ⟨⟨hcwd', hfs'⟩, -, l, rfl, hl⟩
      simp only [endPost, reduceCtorEq, if_false]
      exact ⟨(hh.item item hcwd hl).finished _ _ _, hcwd'.trans hcwd, fun hdry => (hfs' hdry).trans (hfs hdry)⟩
    · rintro e h' u ⟨⟨hcwd', hfs'⟩, -, -, l, rfl, hl⟩
      have hfs'' : dryrun = true → u.fs = s.fs := fun hdry => (hfs' hdry).trans (hfs hdry)
      simp only [endPost]
      split_ifs with hfatal
      · exact ⟨(hh.item item hcwd hl).finished _ _ _, by simp, hfs''⟩
      · exact ⟨(hh.item item hcwd hl).finished _ _ _, (hcwd' hfatal).trans hcwd, hfs''⟩
    · rintro h' ⟨-, l, rfl, hl⟩
      exact hh.item item hcwd hl

/-! ### Main programs -/

/-- The programs that change files. -/
inductive Program where
  | installer
  | deinstaller

def Program.main : Program → List (InstallItem CString) → Bool → Proc ℕ
  | .installer => Programs.installer
  | .deinstaller => Programs.deinstaller

/-- Every item is started in that directory, and the files are the same in a dry run. -/
def mainPost (dryrun : Bool) (fs : FileSys) (cwd : Place) : Post Failure Machine Event ℕ where
  done _ h' t := StartedIn cwd h' ∧ (dryrun = true → t.fs = fs)
  raised _ _ _ := False
  stopped h' := StartedIn cwd h'

theorem startedIn_ofStream {cwd : Place} {l : List Event} (hl : ∀ e ∈ l, OfStream e) :
    StartedIn cwd ([] ++ l) := by
  have hnil : StartedIn cwd [] := fun _ _ hmem => absurd hmem List.not_mem_nil
  exact hnil.append fun e he => inner_of_ofStream e (hl e he)

theorem wp_main (p : Program) (insthier : List (InstallItem CString)) :
    wp host n id (p.main insthier dryrun) (mainPost dryrun s.fs s.cwd) [] s := by
  have htable : ∀ (process : InstallItem Ptr → Proc Unit) (items : List (InstallItem CString)) l t,
      (∀ ins, Tidy dryrun (process ins)) → Loaded s t → (∀ e ∈ l, OfStream e) →
      wp host n id (do if ← eachItem process items then pure 0 else pure 112)
        (mainPost dryrun s.fs s.cwd) ([] ++ l) t := by
    intro process items l t hproc hload hl
    have hstart : StartedIn t.cwd ([] ++ l) := startedIn_ofStream hl
    rw [wp_bind]
    refine wp_mono (wp_eachItem_started hproc items hstart) ?_ (fun _ _ _ => id) ?_
    · rintro ok h' u ⟨hh', -, hfs⟩
      rw [hload.cwd] at hh'
      rw [hload.fs] at hfs
      cases ok with
      | true =>
        simp only [if_true, wp_pure]
        exact ⟨hh', hfs⟩
      | false =>
        simp only [Bool.false_eq_true, if_false, wp_pure]
        exact ⟨hh', hfs⟩
    · intro h' hh'
      rwa [hload.cwd] at hh'
  cases p with
  | installer =>
    refine wp_afterInit (fun l t _ hload hl => ?_) (fun l t _ hl hload => ?_) fun l hl => ?_
    · exact htable _ _ _ _ tidy_install hload hl
    · exact ⟨startedIn_ofStream hl, fun _ => hload.fs⟩
    · exact startedIn_ofStream hl
  | deinstaller =>
    refine wp_afterInit (fun l t _ hload hl => ?_) (fun l t _ hl hload => ?_) fun l hl => ?_
    · split_ifs
      · exact wp_abort.mpr (startedIn_ofStream hl)
      · exact htable _ _ _ _ tidy_deinstall hload hl
    · exact ⟨startedIn_ofStream hl, fun _ => hload.fs⟩
    · exact startedIn_ofStream hl

/-- **Every item is processed in the directory in which the program started, and a dry run changes no
file.** -/
theorem started_in_place (p : Program) (insthier : List (InstallItem CString)) (dryrun : Bool)
    (host : Host) (n : ℕ) (s : Machine) :
    (∀ item u, Event.started item u ∈ (p.main insthier dryrun host n s).log → u.cwd = s.cwd) ∧
      (dryrun = true → ∀ code t, (p.main insthier dryrun host n s).ending = .done code t →
        t.fs = s.fs) := by
  have hwp : wp host n id (p.main insthier dryrun) (mainPost dryrun s.fs s.cwd) [] s :=
    wp_main p insthier
  unfold wp at hwp
  rw [List.map_id, List.nil_append] at hwp
  rcases hend : (p.main insthier dryrun host n s).ending with ⟨code, t⟩ | ⟨e, t⟩ | _ | _ <;>
    rw [hend] at hwp
  · refine ⟨hwp.1, fun hdry code' t' hrun => ?_⟩
    obtain ⟨rfl, rfl⟩ := Ending.done.inj hrun
    exact hwp.2 hdry
  · exact absurd hwp id
  · exact ⟨hwp, fun _ _ _ hrun => by simp at hrun⟩
  · exact ⟨hwp, fun _ _ _ hrun => by simp at hrun⟩

/-- The items that were started. -/
def startedItems (h : List Event) : List (InstallItem CString) := h.filterMap fun
  | .started item _ => some item
  | _ => none

/-- The exit status of a program that returned. -/
def exitStatus : Ending Failure Machine ℕ → Option ℕ
  | .done code _ => some code
  | _ => none

theorem exitStatus_eq_some {e : Ending Failure Machine ℕ} {code : ℕ} :
    exitStatus e = some code ↔ ∃ t, e = .done code t := by
  cases e <;> simp [exitStatus]

/-- A file system with the suffix of libraries and a directory `lib`. -/
def suffixFiles : FileSys :=
  (FileSys.bare.withFile nameSosuffix "so\n".toList 420 (bare_node nameSosuffix)).put nameLib []
    ⟨.directory, 493, 0, 0⟩ (by decide) fun _ => rfl

/-- A link in `lib`. -/
def libLink : InstallItem CString where
  op := .symlink
  src := some ['a']
  dst := some ['b']
  dir := some "lib".toList
  owner := none
  group := none
  perm := 493

theorem started_in_place_links :
    let run := Program.installer.main [libLink, libLink] true Host.quiet 1
      (Machine.initial suffixFiles [])
    startedItems run.log = [libLink, libLink] ∧
      (∀ item u, Event.started item u ∈ run.log → u.cwd = []) ∧
      ∃ t, run.ending = .done 0 t ∧ t.fs = suffixFiles := by
  have hplace := started_in_place .installer [libLink, libLink] true Host.quiet 1
    (Machine.initial suffixFiles [])
  have hstatus : exitStatus (Program.installer.main [libLink, libLink] true Host.quiet 1
      (Machine.initial suffixFiles [])).ending = some 0 := by decide +kernel
  obtain ⟨t, hrun⟩ := exitStatus_eq_some.mp hstatus
  exact ⟨by decide +kernel, hplace.1, t, hrun, hplace.2 rfl 0 t hrun⟩

end LuaAdaLoad.Install.StartingDirectory
