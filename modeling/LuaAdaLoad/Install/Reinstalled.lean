import LuaAdaLoad.Install.Settled

/-!
# Installing again

What an item has made is made again by a second real run of the installer, and that changes nothing
(`Repeats`): a copy replaces a file by the same one, a directory has its owners already, and a link
cannot be made where one is. Such an error does not end the program. So the second run returns 0 and
leaves every file as it is (`installer_again`).
-/

namespace LuaAdaLoad.Install.Reinstalled

open LuaAdaLoad.Control.Actions LuaAdaLoad.Control.Weakest LuaAdaLoad.Control.Frames
open LuaAdaLoad.System.Paths LuaAdaLoad.System.FileSystem LuaAdaLoad.System.Walks
open LuaAdaLoad.System.Removals LuaAdaLoad.System.Undoing LuaAdaLoad.Install.Posix
open LuaAdaLoad.Install.Translation LuaAdaLoad.Install.Operators LuaAdaLoad.Install.Programs
open LuaAdaLoad.Install.Calls LuaAdaLoad.Install.TranslatedNames LuaAdaLoad.Install.Effects
open LuaAdaLoad.Install.Deeds LuaAdaLoad.Install.Agreement LuaAdaLoad.Install.Directories
open LuaAdaLoad.Install.Installed LuaAdaLoad.Install.Journals LuaAdaLoad.Install.Settled
open LuaAdaLoad.Install.Deinstalled (Suffixed wp_installInit)
open LuaAdaLoad.Install.FileCopies (file SameBits LastFailed)
open LuaAdaLoad.Install.StartingDirectory (Inner inner_of_ofStream inner_of_ofWork calm_inner
  within_doing within_instLink exitStatus exitStatus_eq_some directory_absolutePath)

variable {host : Host} {n : ℕ} {h : List Event} {s t u : Machine} {fs fs' : FileSys} {cwd : Place}

/-! ### The same files -/

/-- The same stands at every place. -/
def SameFiles (fs fs' : FileSys) : Prop := ∀ p, fs'.node p = fs.node p

theorem SameFiles.symm (h : SameFiles fs fs') : SameFiles fs' fs := fun p => (h p).symm

theorem SameFiles.keeps (h : SameFiles fs fs') : Keeps fs fs' := fun p x hx =>
  ⟨x, (h p).trans hx, rfl⟩

theorem SameFiles.follow (h : SameFiles fs fs') : fs'.follow = fs.follow := by
  funext cwd path
  refine Option.ext fun p => ⟨fun hp => ?_, fun hp => ?_⟩
  · exact follow_of_keeps h.symm.keeps hp
  · exact follow_of_keeps h.keeps hp

theorem SameFiles.entry (h : SameFiles fs fs') : FileSys.entry fs' = FileSys.entry fs := by
  funext cwd path
  refine Option.ext fun p => ⟨fun hp => ?_, fun hp => ?_⟩
  · exact entry_of_keeps h.symm.keeps hp
  · exact entry_of_keeps h.keeps hp

theorem SameFiles.fileContent (h : SameFiles fs fs') : fileContent fs' = fileContent fs := by
  funext cwd path
  have hnode : fs'.node = fs.node := funext h
  simp only [Calls.fileContent, h.follow, hnode]

/-- At most streams and buffers are different, and the way in which the files are written down. -/
structure Alike (s t : Machine) : Prop where
  files : SameFiles s.fs t.fs
  cwd : t.cwd = s.cwd
  suffixes : SameSuffixes s t

instance : IsPreorder Machine Alike where
  refl s := ⟨fun _ => rfl, rfl, refl_of SameSuffixes s⟩
  trans _ _ _ h h' := ⟨fun p => (h'.files p).trans (h.files p), h'.cwd.trans h.cwd,
    trans_of SameSuffixes h.suffixes h'.suffixes⟩

theorem alike_of_kept (h : Kept s t) : Alike s t :=
  ⟨fun _ => by rw [h.fs], h.cwd, h.execSuffix, h.dlibSuffix⟩

/-! ### Items that change nothing -/

/-- An item of these names changes nothing: what it makes is there. -/
def Repeats (host : Host) (fs : FileSys) (cwd : Place) (names : InstallItem CString) : Prop :=
  match names.op with
  | .copy | .copyExec => ∃ ids p content, idsOf host names.owner names.group = some ids ∧
      FileSys.entry fs cwd (names.dst.getD []) = some p ∧
      fileContent fs cwd (names.src.getD []) = some content ∧
      names.perm &&& 493 = names.perm ∧
      fs.node p = some (file content names.perm ids.1 ids.2) ∧
      ∀ tmp ∈ snprintf maxPathLen (names.dst.getD [] ++ ".tmp".toList),
        ∀ q ∈ FileSys.entry fs cwd tmp, fs.node q = none
  | .symlink | .liblink => ∃ d p, fs.follow cwd (names.dir.getD []) = some d ∧
      FileSys.entry fs d (names.dst.getD []) = some p ∧ fs.node p ≠ none
  | .mkdir => ∃ ids d x, idsOf host names.owner names.group = some ids ∧
      fs.follow cwd (names.dir.getD []) = some d ∧ fs.node d = some x ∧
      withOwners ids.1 ids.2 x = x

theorem repeats_same (h : SameFiles fs fs') {names : InstallItem CString}
    (hrepeats : Repeats host fs cwd names) : Repeats host fs' cwd names := by
  have hnode : fs'.node = fs.node := funext h
  unfold Repeats at hrepeats ⊢
  rwa [hnode, h.follow, h.entry, h.fileContent]

/-- Nothing is changed, and an error does not end the program. -/
def againPost (s : Machine) : Post Failure Machine Event Unit where
  done _ _ t := Alike s t
  raised e _ t := e.status ≠ .fatal ∧ Alike s t
  stopped _ := True

theorem againPost_kept {h' : List Event} {x : Proc Unit} (hkept : Kept s u)
    (hx : wp host n id x (againPost u) h' u) : wp host n id x (againPost s) h' u := by
  have halike := alike_of_kept hkept
  refine wp_mono hx (fun _ _ t ht => trans_of Alike halike ht) ?_ fun _ => id
  exact fun _ _ t ht => ⟨ht.1, trans_of Alike halike ht.2⟩

/-! ### Copies -/

theorem steady_fileCopy (src dst : CString) (uid gid mode : ℕ) :
    Within Inner Erring Placed (fileCopy src dst uid gid mode) := by
  obtain ⟨rest, hcopy, hrest⟩ := fileCopy_eq src dst uid gid mode
  rw [hcopy]
  exact within_bind (within_doing _) fun _ => hrest.mono inner_of_ofWork (fun _ => id) fun _ _ => id

theorem not_fatal {e : Failure} (h : Erring e) : e.status ≠ .fatal := by
  rw [show e.status = .error from h]
  decide

/-- **A file is replaced by the same file.** -/
theorem wp_fileCopy_again {src dst content : CString} {ids : ℕ × ℕ} {mode : ℕ} {p : Place}
    (hfault : ∀ k, host.fault k = none) (hp : FileSys.entry s.fs s.cwd dst = some p)
    (hread : fileContent s.fs s.cwd src = some content) (hmode : mode &&& 493 = mode)
    (hnode : s.fs.node p = some (file content mode ids.1 ids.2)) (hfree : TemporaryFree s dst) :
    wp host n id (fileCopy src dst ids.1 ids.2 mode) (againPost s) h s := by
  rcases htmp : snprintf maxPathLen (dst ++ ".tmp".toList) with _ | tmp
  · unfold fileCopy
    rw [htmp]
    simp only [wp_bind, wp_doing, wp_fail]
    exact ⟨by decide, refl_of Alike s⟩
  have hplace := hfree tmp htmp
  have hcopy : wp host n id (fileCopy src dst ids.1 ids.2 mode)
      (FileCopies.copyPost host s tmp src dst ids.1 ids.2 mode) h s := by
    refine FileCopies.wp_fileCopy htmp (fun q hq => ?_) fun q hq hsrc => ?_
    · rw [hplace q hq]
      intro x hx
      simp at hx
    · exact there_of_follow hsrc (hplace q hq)
  refine wp_mono ((steady_fileCopy _ _ _ _ _).wp_and hcopy) ?_ ?_ fun _ _ => trivial
  · rintro _ h' t ⟨⟨⟨content', p', got, hread', hp', hbits, hmade⟩, -, q, p'', hq, hp'', hrenamed⟩,
      hplaced, -⟩
    obtain rfl := Option.some.inj (hread'.symm.trans hread)
    obtain rfl := Option.some.inj (hp'.symm.trans hp)
    obtain rfl := Option.some.inj (hp''.symm.trans hp)
    obtain rfl := mode_of_sameBits hbits hmode
    refine ⟨fun r => ?_, hplaced.cwd, sameSuffixes_of_placed _ _ hplaced⟩
    by_cases hrp : r = p''
    · rw [hrp, hmade, hnode]
    by_cases hrq : r = q
    · subst hrq
      rw [hrenamed.gone hrp, hplace r hq]
    · exact hrenamed.node r hrp hrq
  · rintro e h' t ⟨hend, herring, hplaced, -⟩
    refine ⟨not_fatal herring, fun r => ?_, hplaced.cwd, sameSuffixes_of_placed _ _ hplaced⟩
    rcases hend with ⟨-, hlast⟩ | ⟨hfs, -⟩ | ⟨q, hq, hundone⟩
    · exact absurd (hfault _) hlast
    · rw [hfs]
    · by_cases hrq : r = q
      · subst hrq
        rw [hundone.gone, hplace r hq]
      · exact hundone.node r hrq

theorem wp_instCopy_again {ins : InstallItem Ptr} (hfault : ∀ k, host.fault k = none)
    (hop : IsCopy ins.op) (hrepeats : Repeats host s.fs s.cwd (reading s.statics ins)) :
    wp host n id (instCopy ins false) (againPost s) h s := by
  have hsame : ∃ ids p content, idsOf host ins.owner ins.group = some ids ∧
      FileSys.entry s.fs s.cwd ((reading s.statics ins).dst.getD []) = some p ∧
      fileContent s.fs s.cwd ((reading s.statics ins).src.getD []) = some content ∧
      ins.perm &&& 493 = ins.perm ∧ s.fs.node p = some (file content ins.perm ids.1 ids.2) ∧
      TemporaryFree s ((reading s.statics ins).dst.getD []) := by
    obtain ⟨op, src, dst, dir, owner, group, perm⟩ := ins
    rcases hop with hop | hop
    · obtain rfl : op = .copy := hop
      exact hrepeats
    · obtain rfl : op = .copyExec := hop
      exact hrepeats
  obtain ⟨ids, p, content, hids, hp, hread, hperm, hnode, hfree⟩ := hsame
  simp only [instCopy, wp_bind]
  refine wp_ids (fun ids' hids' => ?_) fun hno => absurd hids (by simp [hno])
  obtain rfl := Option.some.inj (hids'.symm.trans hids)
  refine wp_deref (fun _ => trivial) fun src hsrc => ?_
  refine wp_deref (fun _ => trivial) fun dst hdst => ?_
  have hsrc : (reading s.statics ins).src.getD [] = src.read s.statics := by
    unfold reading
    rw [hsrc]
    rfl
  have hdst : (reading s.statics ins).dst.getD [] = dst.read s.statics := by
    unfold reading
    rw [hdst]
    rfl
  rw [hsrc] at hread
  rw [hdst] at hp hfree
  have hcopy : ∀ u : Machine, Kept s u → wp host n id
      (fileCopy (src.read s.statics) (dst.read s.statics) ids'.1 ids'.2 ins.perm)
      (againPost s) h u := by
    intro u hkept
    unfold TemporaryFree at hfree
    rw [← hkept.fs, ← hkept.cwd] at hp hread hfree
    rw [← hkept.fs] at hnode
    exact againPost_kept hkept (wp_fileCopy_again hfault hp hread hperm hnode hfree)
  simp only [fileSize, wp_bind, wp_ask]
  refine wp_query (fun e _ => ?_) fun x _ => ?_
  · simp only [wp_pure]
    exact hcopy _ ⟨rfl, rfl, rfl, rfl⟩
  · simp only [wp_pure]
    exact hcopy _ ⟨rfl, rfl, rfl, rfl⟩

/-! ### Directories -/

/-- No directory is made along a path that leads somewhere. -/
theorem mkdir_along {dir b : CString} {d : Place} {mode uid gid : ℕ}
    (hdir : fs.follow cwd dir = some d) (hb : b ∈ loopDirs [] dir) :
    fs.mkdir cwd b mode uid gid ≠ .ok fs' := fun hmk => by
  obtain ⟨hstart, ds, hcs⟩ := loopDirs_along hb cwd
  obtain ⟨p, hnew, -, -, hto⟩ := mkdir_made hmk
  obtain ⟨e, hlocate, -⟩ := mkdir_ok hmk
  obtain ⟨ds', hname, -⟩ := locate_some hlocate
  unfold FileSys.follow at hdir
  split_ifs at hdir
  obtain ⟨hwalk, -⟩ := Option.filter_eq_some_iff.mp hdir
  rw [← hcs, ← hstart] at hwalk
  obtain ⟨r, k, hr, -⟩ := walk_split hwalk
  have hthere : fs.node r ≠ none := there_of_walked hr (.inl (by simp [hname]))
  obtain rfl : r = p := walk_unique (walk_of_keeps (mkdir_keeps hmk) hr) hto
  exact hthere hnew

/-- **A directory is opened once more.** -/
theorem wp_instMkdir_again {ins : InstallItem Ptr} (hop : ins.op = .mkdir)
    (hrepeats : Repeats host s.fs s.cwd (reading s.statics ins)) :
    wp host n id (instMkdir ins false) (againPost s) h s := by
  have hsame : ∃ ids d x, idsOf host ins.owner ins.group = some ids ∧
      s.fs.follow s.cwd ((reading s.statics ins).dir.getD []) = some d ∧
      s.fs.node d = some x ∧ withOwners ids.1 ids.2 x = x := by
    obtain ⟨op, src, dst, dir, owner, group, perm⟩ := ins
    obtain rfl : op = .mkdir := hop
    exact hrepeats
  obtain ⟨ids, d, x, hids, hd, hx, hagain⟩ := hsame
  simp only [instMkdir, wp_bind]
  refine wp_ids (fun ids' hids' => ?_) fun hno => absurd hids (by simp [hno])
  obtain rfl := Option.some.inj (hids'.symm.trans hids)
  refine wp_deref (fun _ => trivial) fun p hp => ?_
  set dir := p.read s.statics with hdir
  have hread : (reading s.statics ins).dir.getD [] = dir := by
    unfold reading
    rw [hp]
    rfl
  rw [hread] at hd
  have hrest : ∀ {made : Bool} {h' : List Event} {u : Machine}, Alike s u →
      wp host n id (if !made then fail .error "could not create directory" else do
        let owned ← chown dir ids'.1 ids'.2
        if !owned then
          fail .error "could not set ownership on directory") (againPost s) h' u := by
    intro made h' u halike
    cases made with
    | false =>
      simp only [Bool.not_false, if_true, wp_fail]
      exact ⟨by decide, halike⟩
    | true =>
      simp only [Bool.not_true, Bool.false_eq_true, if_false, wp_bind]
      refine wp_change (fun e _ => ?_) fun fs hfs => ?_
      · simp only [Bool.not_false, if_true, wp_fail]
        exact ⟨by decide, halike.files, halike.cwd, halike.suffixes.1, halike.suffixes.2⟩
      · simp only [Bool.not_true, Bool.false_eq_true, if_false, wp_pure]
        obtain ⟨d', hd', hnode⟩ := chown_ok hfs
        rw [halike.files.follow, halike.cwd, hd] at hd'
        obtain rfl := Option.some.inj hd'
        refine ⟨fun q => ?_, halike.cwd, halike.suffixes.1, halike.suffixes.2⟩
        change fs.node q = s.fs.node q
        rw [hnode, halike.files]
        split_ifs with hq
        · rw [hq, hx, Option.map_some, hagain]
        · rfl
  simp only [Bool.not_false, if_true, installRmkdir, wp_bind, wp_doing]
  split_ifs with hlen
  · simp only [wp_bind, wp_modify, wp_pure]
    exact hrest ⟨fun _ => rfl, rfl, rfl, rfl⟩
  · have hloop : wp host n id (rmkdirLoop ins.perm (dir.length + 1) [] dir)
        ⟨fun _ _ t => SameFiles s.fs t.fs ∧ t.cwd = s.cwd, fun _ _ _ => False, fun _ => True⟩
        (h ++ [.deed (.make dir) s]) s := by
      refine wp_rmkdirLoop_keeps s.cwd _ (fun b hb fs fs' mode uid gid hfs hmk => ?_)
        (fun _ => rfl) rfl
      have hleads : fs.follow s.cwd dir = some d := by rw [hfs.follow, hd]
      exact absurd hmk (mkdir_along hleads hb)
    refine wp_mono ((steady_rmkdirLoop _ _ _ _).wp_and hloop) ?_
      (fun _ _ _ hf => hf.1.elim) fun _ _ => trivial
    rintro made h' u ⟨⟨hfiles, hcwd⟩, hplaced, -⟩
    exact hrest ⟨hfiles, hcwd, sameSuffixes_of_placed _ _ hplaced⟩

/-! ### Links -/

/-- On a sound host the way back cannot fail. -/
theorem wp_restoreCwd_sound {p : Place} {Q : Post Failure Machine Event Unit}
    (hsound : host.Sound) (hp : IsDir (s.fs.node p))
    (hdone : ∀ t, t.fs = s.fs → t.cwd = p → SameSuffixes s t → Q.done () h t) :
    wp host n id (restoreCwd (absolutePath p)) Q h s := by
  have hback : s.directory (absolutePath p) = .ok p := by
    unfold Machine.directory
    rw [follow_absolutePath s.cwd hp]
    simp only [hp, if_true]
  rw [restoreCwd, wp_bind]
  refine wp_chdir (fun e hno => absurd hback (hno hsound p)) fun q hq => ?_
  simp only [Bool.not_true, Bool.false_eq_true, if_false, wp_pure]
  obtain rfl := Except.ok.inj (hback.symm.trans hq)
  exact hdone _ rfl rfl ⟨rfl, rfl⟩

/-- **A link is not made where something is.** -/
theorem wp_instLink_again {ins : InstallItem Ptr} (hsound : host.Sound) (hop : IsLink ins.op)
    (hrepeats : Repeats host s.fs s.cwd (reading s.statics ins)) :
    wp host n id (instLink ins false) (againPost s) h s := by
  have hthere : ∃ d p, s.fs.follow s.cwd ((reading s.statics ins).dir.getD []) = some d ∧
      FileSys.entry s.fs d ((reading s.statics ins).dst.getD []) = some p ∧
      s.fs.node p ≠ none := by
    obtain ⟨op, src, dst, dir, owner, group, perm⟩ := ins
    rcases hop with hop | hop
    · obtain rfl : op = .symlink := hop
      exact hrepeats
    · obtain rfl : op = .liblink := hop
      exact hrepeats
  obtain ⟨d, p, hd, hp, hnode⟩ := hthere
  rw [instLink, wp_bind]
  refine wp_query (fun e _ => ?_) fun cwd hcwd => ?_
  · simp only [wp_fail]
    exact ⟨by decide, fun _ => rfl, rfl, rfl, rfl⟩
  split_ifs at hcwd with hdir hlen
  obtain rfl := Except.ok.inj hcwd
  simp only [wp_bind]
  refine wp_deref (fun _ => trivial) fun dir hdirp => ?_
  refine wp_chdir (fun e _ => ?_) fun d' hd' => ?_
  · simp only [Bool.not_false, if_true, wp_fail]
    exact ⟨by decide, fun _ => rfl, rfl, rfl, rfl⟩
  simp only [Bool.not_true, Bool.false_eq_true, if_false, wp_bind]
  refine wp_deref (fun _ => trivial) fun src _ => wp_deref (fun _ => trivial) fun dst hdst => ?_
  have hread : (reading s.statics ins).dir.getD [] = dir.read s.statics := by
    unfold reading
    rw [hdirp]
    rfl
  have hname : (reading s.statics ins).dst.getD [] = dst.read s.statics := by
    unfold reading
    rw [hdst]
    rfl
  rw [hread] at hd
  rw [hname] at hp
  obtain rfl : d' = d := Option.some.inj ((follow_of_directory hd').symm.trans hd)
  simp only [wp_doing]
  refine wp_change (fun e _ => ?_) fun fs hfs => ?_
  · refine wp_restoreCwd_sound hsound hdir fun t hfs hcwd hsuffixes => ?_
    simp only [Bool.not_false, if_true, wp_fail]
    refine ⟨by decide, fun _ => by rw [hfs]; rfl, hcwd, hsuffixes.1, hsuffixes.2⟩
  · obtain ⟨-, p', hp', hno, -⟩ := symlink_ok hfs
    obtain rfl : p' = p := Option.some.inj (hp'.symm.trans hp)
    exact absurd hno hnode

/-! ### The run of the installer -/

theorem wp_installOper_again {ins : InstallItem Ptr} (hsound : host.Sound)
    (hrepeats : Repeats host s.fs s.cwd (reading s.statics ins)) :
    wp host n id ((installOpers ins.op).oper ins false) (againPost s) h s := by
  cases hop : ins.op with
  | copy => exact wp_instCopy_again hsound.fault (.inl hop) hrepeats
  | copyExec => exact wp_instCopy_again hsound.fault (.inr hop) hrepeats
  | symlink => exact wp_instLink_again hsound (.inl hop) hrepeats
  | mkdir => exact wp_instMkdir_again hop hrepeats
  | liblink => exact wp_instLink_again hsound (.inr hop) hrepeats

/-- The names of an item are those of one that changes nothing. -/
def ItemRepeats (host : Host) (s : Machine) (item : InstallItem CString) : Prop :=
  ∃ names, installNames (wordIn s.fs s.cwd) s item = some names ∧ Repeats host s.fs s.cwd names

theorem ItemRepeats.alike {item : InstallItem CString} (h : ItemRepeats host s item)
    (halike : Alike s t) : ItemRepeats host t item := by
  obtain ⟨names, hnames, hrepeats⟩ := h
  refine ⟨names, ?_, ?_⟩
  · rw [← hnames]
    refine installNames_congr halike.suffixes.execSuffix halike.suffixes.dlibSuffix fun name _ => ?_
    unfold wordIn
    rw [halike.files.fileContent, halike.cwd]
  · rw [halike.cwd]
    exact repeats_same halike.files hrepeats

theorem wp_install_again {item : InstallItem CString} (hsound : host.Sound)
    (hitem : ItemRepeats host s item) :
    wp host n id (install (loaded item) false) (againPost s) h s := by
  obtain ⟨names, hnames, hrepeats⟩ := hitem
  obtain ⟨bufs, htrans⟩ := wp_installTrans (n := n) (h := h) (s := s) hsound.chunk item
  rw [hnames] at htrans
  rw [install, processed, wp_bind]
  refine wp_mono htrans ?_ (fun _ _ _ hno => absurd (hno hsound) (by simp)) fun _ _ => trivial
  rintro ins h' u ⟨hkept, -, hins⟩
  obtain rfl := Option.some.inj hins
  rw [← hkept.fs, ← hkept.cwd] at hrepeats
  exact againPost_kept hkept (wp_installOper_again hsound hrepeats)

/-- Nothing is changed, and the program goes on. -/
def repeatedPost (s : Machine) : Post Failure Machine Event Bool where
  done ok _ t := ok = true ∧ Alike s t
  raised _ _ _ := False
  stopped _ := True

theorem wp_eachItem_again (hsound : host.Sound) (items : List (InstallItem CString))
    (hitems : ∀ item ∈ items, ItemRepeats host s item) :
    wp host n id (eachItem (fun ins => install ins false) items) (repeatedPost s) h s := by
  refine wp_eachItem (I := fun _ _ => Alike s) (refl_of Alike s) (fun _ _ halike => ⟨rfl, halike⟩) ?_
  rintro pre item post h t rfl halike
  have hitem := (hitems item (by simp)).alike halike
  refine wp_mono (wp_install_again hsound hitem) ?_ ?_ fun _ _ => trivial
  · intro _ h' u halike'
    simp only [endPost, reduceCtorEq, if_false]
    exact trans_of Alike halike halike'
  · rintro e h' u ⟨hgoes, halike'⟩
    simp only [endPost, if_neg hgoes]
    exact trans_of Alike halike halike'

/-! ### What is there repeats -/

variable {e : Start} {names : InstallItem CString} {after starts : List Start} {p : Place}

/-- The item can be installed again when it and all later ones are installed: what it makes lasts,
and nothing is in the place of its temporary file. -/
@[mk_iff]
structure Repeatable (e : Start) (fs : FileSys) (after : List Start) : Prop where
  lasts : Lasting e fs after
  free : IsCopy e.item.op → TemporaryFree { e.state with fs := fs } e.path

instance (e : Start) (fs : FileSys) (after : List Start) : Decidable (Repeatable e fs after) :=
  decidable_of_iff _ (repeatable_iff e fs after).symm

/-- Every item can be installed again. -/
def AllRepeatable (fs : FileSys) : List Start → Prop := Along fun e after => Repeatable e fs after

instance (fs : FileSys) (starts : List Start) : Decidable (AllRepeatable fs starts) := by
  unfold AllRepeatable; infer_instance

/-- **An item that is installed repeats**, on a host with the same users. -/
theorem repeats_of_past {host' : Host} (h : Past host n e s after t)
    (hfree : IsCopy e.item.op → TemporaryFree { e.state with fs := t.fs } e.path)
    (husers : ∀ owner group, idsOf host' owner group = idsOf host owner group)
    (hfs : u.fs = t.fs) (hcwd : u.cwd = e.state.cwd) (hsuffixes : SameSuffixes e.state u) :
    ItemRepeats host' u e.item := by
  obtain ⟨names, hnames, -⟩ := installs_of_done h.whole h.head
  replace hnames : e.names = some names := hnames
  refine ⟨names, h.translated hnames (by rw [hfs]) hcwd hsuffixes, ?_⟩
  rw [hfs, hcwd]
  have hop : names.op = e.item.op := installNames_op hnames
  have hcopy : IsCopy e.item.op → ∃ ids p content, idsOf host' names.owner names.group = some ids ∧
      FileSys.entry t.fs e.state.cwd (names.dst.getD []) = some p ∧
      fileContent t.fs e.state.cwd (names.src.getD []) = some content ∧
      names.perm &&& 493 = names.perm ∧
      t.fs.node p = some (file content names.perm ids.1 ids.2) ∧
      ∀ tmp ∈ snprintf maxPathLen (names.dst.getD [] ++ ".tmp".toList),
        ∀ q ∈ FileSys.entry t.fs e.state.cwd tmp, t.fs.node q = none := by
    intro hcopy
    obtain ⟨-, hpath, ids, p, content, hids, hentry, -, hread, hperm, hnode⟩ := h.copy hcopy hnames
    have htemporary := hfree hcopy
    rw [hpath] at hentry htemporary
    exact ⟨ids, p, content, (husers _ _).trans hids, hentry, hread, hperm, hnode, htemporary⟩
  have hlink : IsLink e.item.op → ∃ d p, t.fs.follow e.state.cwd (names.dir.getD []) = some d ∧
      FileSys.entry t.fs d (names.dst.getD []) = some p ∧ t.fs.node p ≠ none := by
    intro hlink
    obtain ⟨-, d, p, hd, hp, -, -, hnode⟩ := h.link hlink hnames
    exact ⟨d, p, hd, hp, by simp [hnode]⟩
  unfold Repeats
  rw [hop]
  cases hcase : e.item.op with
  | copy => exact hcopy (.inl hcase)
  | copyExec => exact hcopy (.inr hcase)
  | symlink => exact hlink (.inl hcase)
  | liblink => exact hlink (.inr hcase)
  | mkdir =>
    obtain ⟨hpath, ids, d, hids, -, hfollow, hnode⟩ := h.directory hcase hnames
    rw [hpath] at hfollow
    exact ⟨ids, d, _, (husers _ _).trans hids, hfollow, hnode, withOwners_ownedNode _ _ _ _⟩

/-- Every item of a chain repeats when the chain is done. -/
theorem repeats_of_chain {host' : Host} (hwhole : ∀ k, host.chunk k = none)
    (husers : ∀ owner group, idsOf host' owner group = idsOf host owner group)
    (hchain : Chain host n s starts t) (hplain : AllPlain t.fs starts)
    (hrepeatable : AllRepeatable t.fs starts) (hfs : u.fs = t.fs)
    (hcwd : u.cwd = s.cwd) (hsuffixes : SameSuffixes s u) :
    ∀ item ∈ starts.map Start.item, ItemRepeats host' u item := by
  induction hchain with
  | nil s => simp
  | @cons item s s₁ t starts head tail ih =>
    obtain ⟨hfirst, hrest⟩ := along_cons.mp hrepeatable
    obtain ⟨hcwd₁, hsuffixes₁⟩ := place_of_done head
    have hback : SameSuffixes s₁ u := ⟨hsuffixes.execSuffix.trans hsuffixes₁.execSuffix.symm,
      hsuffixes.dlibSuffix.trans hsuffixes₁.dlibSuffix.symm⟩
    have hpast : Past host n ⟨item, s⟩ s₁ starts t := ⟨hwhole, head, tail, hplain, hfirst.lasts⟩
    rw [List.map_cons, List.forall_mem_cons]
    exact ⟨repeats_of_past hpast hfirst.free husers hfs hcwd hsuffixes,
      ih hplain.rest hrest hfs (hcwd.trans hcwd₁.symm) hback⟩

/-! ### Both runs -/

/-- The program ends with 0, and nothing is changed. -/
def unchangedPost (s : Machine) : Post Failure Machine Event ℕ where
  done code _ t := code = 0 ∧ SameFiles s.fs t.fs
  raised _ _ _ := False
  stopped _ := True

/-- **The second run**, on items that change nothing. -/
theorem wp_installer_again {items : List (InstallItem CString)} {content : CString}
    (hsound : host.Sound)
    (hread : fileContent s.fs s.cwd "conf-sosuffix".toList = some content) (hcontent : content ≠ [])
    (hitems : ∀ t, t.fs = s.fs → t.cwd = s.cwd → Suffixed t content →
      ∀ item ∈ items, ItemRepeats host t item) :
    wp host n id (installer items false) (unchangedPost s) [] s := by
  simp only [installer, afterInit, statusOf, wp_bind, wp_attempt]
  refine wp_mono ((within_installInit _).wp_and (wp_installInit hsound.chunk _)) ?_ ?_
    fun _ _ => trivial
  · rintro _ h t ⟨⟨content', hread', -, hsuffixed⟩, hload, -⟩
    obtain rfl := Option.some.inj (hread'.symm.trans hread)
    simp only [wp_pure, if_true, wp_bind]
    refine wp_mono (wp_eachItem_again hsound items (hitems t hload.fs hload.cwd hsuffixed)) ?_
      (fun _ _ _ => id) fun _ => id
    rintro ok h' u ⟨rfl, halike⟩
    simp only [if_true, wp_pure]
    exact ⟨rfl, fun p => by rw [halike.files, hload.fs]⟩
  · rintro e h t ⟨hraised, -⟩
    exact absurd (hraised hsound content hread) hcontent

/-- **Installing again changes nothing.** Neither run is a dry one. -/
theorem installer_again {insthier : List (InstallItem CString)} {fs₀ : FileSys} {host' : Host}
    (n' : ℕ) (hwhole : ∀ k, host.chunk k = none) (hsound : host'.Sound)
    (husers : ∀ owner group, idsOf host' owner group = idsOf host owner group)
    (hrun : (installer insthier false host n (Machine.initial fs₀ cwd)).ending = .done 0 t)
    (hok : AllOk (installer insthier false host n (Machine.initial fs₀ cwd)).log)
    (hstarts : startsOf (installer insthier false host n (Machine.initial fs₀ cwd)).log = starts)
    (hsuffix : ∀ p ∈ fs₀.follow cwd "conf-sosuffix".toList, ∀ e ∈ starts, e.target ≠ some p)
    (hplain : AllPlain t.fs starts) (hrepeatable : AllRepeatable t.fs starts) {code : ℕ}
    (hagain : (installer insthier false host' n' (Machine.initial t.fs cwd)).ending =
      .done code u) :
    code = 0 ∧ SameFiles t.fs u.fs := by
  obtain ⟨s, content, rfl, hscwd, hsuffixed, hcontent, hread, hitems, hchain⟩ :=
    chain_of_installer hwhole hrun hok hstarts
  have hread := Chain.reads hchain hwhole hplain hread hsuffix
  have hsecond : wp host' n' id (installer insthier false)
      (unchangedPost (Machine.initial t.fs cwd)) [] (Machine.initial t.fs cwd) := by
    refine wp_installer_again hsound hread hcontent fun u hfs hcwd hsuffixed' => ?_
    rw [← hitems]
    exact repeats_of_chain hwhole husers hchain hplain hrepeatable hfs (hcwd.trans hscwd.symm)
      (hsuffixed.same hsuffixed')
  exact wp_done hsecond hagain

/-- A table with all operations is installed twice. -/
theorem installer_again_lasting : ∃ u,
    (installer lastingTrial.table false Host.quiet 9
      (Machine.initial lastingTrial.installed [])).ending = .done 0 u ∧
    SameFiles lastingTrial.installed u.fs := by
  have hstatus : exitStatus lastingTrial.forward.ending = some 0 := by decide +kernel
  have hok : AllOk lastingTrial.forward.log := by decide +kernel
  have hsuffix : ∀ p ∈ lastingTrial.files.follow [] "conf-sosuffix".toList,
      ∀ e ∈ lastingTrial.journal, e.target ≠ some p := by decide +kernel
  have hplain : AllPlain lastingTrial.installed lastingTrial.journal := by decide +kernel
  have hrepeatable : AllRepeatable lastingTrial.installed lastingTrial.journal := by decide +kernel
  have hstatus' : exitStatus (installer lastingTrial.table false Host.quiet 9
      (Machine.initial lastingTrial.installed [])).ending = some 0 := by decide +kernel
  obtain ⟨t, hrun⟩ := exitStatus_eq_some.mp hstatus
  have ht : lastingTrial.installed = t.fs := by
    rw [RoundTrip.Trial.installed, hrun]
    rfl
  rw [ht] at hplain hrepeatable hstatus' ⊢
  obtain ⟨u, hagain⟩ := exitStatus_eq_some.mp hstatus'
  exact ⟨u, hagain, (installer_again 9 (fun _ => rfl) sound_quiet (fun _ _ => rfl) hrun hok rfl
    hsuffix hplain hrepeatable hagain).2⟩

end LuaAdaLoad.Install.Reinstalled
