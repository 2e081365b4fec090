import LuaAdaLoad.Install.Agreement
import LuaAdaLoad.Install.Directories
import LuaAdaLoad.Install.FileCopies
import LuaAdaLoad.Install.StartingDirectory
import LuaAdaLoad.System.Undoing

/-!
# What an installed item has done

An item that the installer ends with OK has put a file at a place, or opened a directory with those
above it that were missing (`Installs`). A copy does so if nothing was in the place of its temporary
file, and the loop of `install_rmkdir` whatever its calls of `mkdir` return.
-/

namespace LuaAdaLoad.Install.Installed

open LuaAdaLoad.Control.Actions LuaAdaLoad.Control.Weakest LuaAdaLoad.Control.Frames
open LuaAdaLoad.System.Paths LuaAdaLoad.System.FileSystem LuaAdaLoad.System.Walks
open LuaAdaLoad.System.Removals
open LuaAdaLoad.System.Undoing LuaAdaLoad.Install.Posix LuaAdaLoad.Install.Translation
open LuaAdaLoad.Install.Operators LuaAdaLoad.Install.Calls LuaAdaLoad.Install.TranslatedNames
open LuaAdaLoad.Install.Effects LuaAdaLoad.Install.Deeds LuaAdaLoad.Install.Agreement
open LuaAdaLoad.Install.Directories
open LuaAdaLoad.Install.FileCopies (Renamed)
open LuaAdaLoad.Install.StartingDirectory hiding wp_main

variable {host : Host} {n : ℕ} {h : List Event} {s t : Machine}

/-! ### Copies -/

/-- Nothing is in the place of the temporary file. -/
def TemporaryFree (s : Machine) (dst : CString) : Prop :=
  ∀ tmp ∈ snprintf maxPathLen (dst ++ ".tmp".toList), ∀ q ∈ FileSys.entry s.fs s.cwd tmp,
    s.fs.node q = none

instance (s : Machine) (dst : CString) : Decidable (TemporaryFree s dst) := by
  unfold TemporaryFree; infer_instance

theorem puts_of_renamed {q p : Place} (h : Renamed s t q p) (hfree : s.fs.node q = none)
    (hflat : Flat (s.fs.node p)) : Puts p s.fs t.fs where
  keeps r x hx := by
    by_cases hr : r = p
    · subst hr
      obtain ⟨x', hx'⟩ := Option.ne_none_iff_exists'.mp h.there
      obtain ⟨content, hk⟩ := hflat x hx
      obtain ⟨content', hk'⟩ := h.flat x' hx'
      exact ⟨x', hx', by rw [hk, hk']; rfl⟩
    · have hrq : r ≠ q := by
        rintro rfl
        simp [hfree] at hx
      exact ⟨x, by rw [h.node r hr hrq, hx], rfl⟩
  other r hr := by
    by_cases hrq : r = q
    · subst hrq
      rw [h.gone hr, hfree]
    · exact h.node r hr hrq
  there := h.there
  notDir := h.flat.not_isDir
  noLink x target hx := Flat.not_symlink (hx ▸ hflat)

/-- A copy to `dst` puts a file there. -/
def CopiesTo (s : Machine) (dst : CString) (t : Machine) : Prop :=
  TemporaryFree s dst → ¬ Slashed dst ∧ ∃ p, FileSys.entry s.fs s.cwd dst = some p ∧
    (Flat (s.fs.node p) → Puts p s.fs t.fs)

/-- What is done when an operator returns. -/
def donePost (P : Machine → Prop) : Post Failure Machine Event Unit where
  done _ _ t := P t
  raised _ _ _ := True
  stopped _ := True

theorem wp_fileCopy_puts {src dst : CString} {uid gid mode : ℕ} :
    wp host n id (fileCopy src dst uid gid mode) (donePost (CopiesTo s dst)) h s := by
  rcases htmp : snprintf maxPathLen (dst ++ ".tmp".toList) with _ | tmp
  · unfold fileCopy
    rw [htmp]
    simp only [wp_bind, wp_doing, wp_fail]
    exact trivial
  by_cases hfree : TemporaryFree s dst
  · have hplace := hfree tmp htmp
    refine wp_mono (FileCopies.wp_fileCopy htmp (fun q hq => ?_) fun q hq hsrc => ?_) ?_
      (fun _ _ _ _ => trivial) fun _ _ => trivial
    · rw [hplace q hq]
      intro x hx
      simp at hx
    · exact there_of_follow hsrc (hplace q hq)
    · rintro _ h' t ⟨-, hslash, q, p, hq, hp, hrenamed⟩ -
      exact ⟨hslash, p, hp, puts_of_renamed hrenamed (hplace q hq)⟩
  · exact wp_of_history (fun _ _ _ hf => absurd hf hfree) (fun _ _ _ => trivial) fun _ => trivial

theorem wp_instCopy {ins : InstallItem Ptr} : wp host n id (instCopy ins false)
    (donePost fun t => ∃ dst, ins.dst = some dst ∧ CopiesTo s (dst.read s.statics) t) h s := by
  simp only [instCopy, wp_bind]
  refine wp_uidgidLookup (fun ids => ?_) fun e => trivial
  refine wp_deref (fun _ => trivial) fun src _ => ?_
  refine wp_deref (fun _ => trivial) fun dst hdst => ?_
  have hcopy : ∀ u : Machine, u.fs = s.fs → u.cwd = s.cwd →
      wp host n id (fileCopy (src.read s.statics) (dst.read s.statics) ids.1 ids.2 ins.perm)
        (donePost fun t => ∃ dst, ins.dst = some dst ∧ CopiesTo s (dst.read s.statics) t) h u := by
    intro u hfs hcwd
    refine wp_mono wp_fileCopy_puts (fun _ _ t ht => ⟨dst, hdst, ?_⟩) (fun _ _ _ => id) fun _ => id
    unfold CopiesTo TemporaryFree at ht ⊢
    rwa [hfs, hcwd] at ht
  simp only [fileSize, wp_bind, wp_ask]
  refine wp_query (fun e _ => ?_) fun x _ => ?_
  · simp only [wp_pure]
    exact hcopy _ rfl rfl
  · simp only [wp_pure]
    exact hcopy _ rfl rfl

/-! ### Links -/

theorem symlink_ok {fs fs' : FileSys} {cwd : Place} {target path : CString} {uid gid : ℕ}
    (h : fs.symlink cwd target path uid gid = .ok fs') : ¬ Slashed path ∧
      ∃ p, FileSys.entry fs cwd path = some p ∧ fs.node p = none ∧ Puts p fs fs' := by
  have hkeeps := symlink_keeps h
  unfold FileSys.symlink at h
  split_ifs at h with hno
  rcases he : fs.locate cwd path with _ | e <;> rw [he] at h
  · exact absurd h (by simp)
  simp only at h
  split_ifs at h with hnew
  obtain rfl := Except.ok.inj h
  refine ⟨fun hslash => hno (.inr hslash), e.place, entry_eq_some.mpr ⟨e, he, rfl⟩, hnew,
    hkeeps, fun q hq => ?_, ?_, ?_, fun x target hx => ?_⟩
  · rw [node_put]
    exact if_neg hq
  · rw [node_put, if_pos (show e.place = e.name :: e.dir from rfl)]
    exact Option.some_ne_none _
  · rw [node_put, if_pos (show e.place = e.name :: e.dir from rfl)]
    simp [IsDir]
  · exact absurd (hnew.symm.trans hx) (by simp)

/-- A link `dst` in `dir` is put there. -/
def LinksTo (s : Machine) (dir dst : CString) (t : Machine) : Prop :=
  ∃ d p, s.fs.follow s.cwd dir = some d ∧ FileSys.entry s.fs d dst = some p ∧
    s.fs.node p = none ∧ ¬ Slashed dst ∧ Puts p s.fs t.fs

theorem wp_instLink {ins : InstallItem Ptr} : wp host n id (instLink ins false)
    (donePost fun t => ∃ dir dst, ins.dir = some dir ∧ ins.dst = some dst ∧
      LinksTo s (dir.read s.statics) (dst.read s.statics) t) h s := by
  rw [instLink, wp_bind]
  refine wp_query (fun e _ => ?_) fun cwd hcwd => ?_
  · simp only [wp_fail]
    exact trivial
  split_ifs at hcwd with hno hlen
  obtain rfl := Except.ok.inj hcwd
  simp only [wp_bind]
  refine wp_deref (fun _ => trivial) fun dir hdir => ?_
  refine wp_chdir (fun e _ => ?_) fun d hd => ?_
  · simp only [Bool.not_false, if_true, wp_fail]
    exact trivial
  simp only [Bool.not_true, Bool.false_eq_true, if_false, wp_bind]
  refine wp_deref (fun _ => trivial) fun src _ => wp_deref (fun _ => trivial) fun dst hdst => ?_
  simp only [wp_doing]
  refine wp_change (fun e _ => ?_) fun fs hfs => ?_
  · refine wp_restoreCwd hno (fun t _ _ => ?_) fun e t _ _ => trivial
    simp only [Bool.not_false, if_true, wp_fail]
    exact trivial
  · refine wp_restoreCwd ((symlink_keeps hfs).isDir hno) (fun t ht _ => ?_) fun e t _ _ => trivial
    simp only [Bool.not_true, Bool.false_eq_true, if_false, wp_pure]
    obtain ⟨hslash, p, hp, hnew, hput⟩ := symlink_ok hfs
    refine ⟨dir, dst, hdir, hdst, d, p, follow_of_directory hd, hp, hnew, hslash, ?_⟩
    rw [ht]
    exact hput

/-! ### Directories -/

/-- Directories along the components were made, and nothing else was done. -/
structure MadeAlong (s fs : FileSys) (p : Place) (cs : List Component) : Prop where
  keeps : ∀ q x, s.node q = some x → fs.node q = some x
  made : ∀ q, fs.node q ≠ none → s.node q = none →
    IsDir (fs.node q) ∧ ∃ ds, ds <+: cs ∧ fs.walk false maxSymlinks p ds = some q

theorem madeAlong_refl (fs : FileSys) (p : Place) (cs : List Component) : MadeAlong fs fs p cs :=
  ⟨fun _ _ hx => hx, fun _ hq hno => absurd hno hq⟩

/-- One more directory is made along the components. -/
theorem MadeAlong.mkdir {s fs fs' : FileSys} {p cwd : Place} {cs : List Component} {path : CString}
    {mode uid gid : ℕ} (h : MadeAlong s fs p cs) (hstart : start cwd path = p)
    (hcs : components path <+: cs) (hmk : fs.mkdir cwd path mode uid gid = .ok fs') :
    MadeAlong s fs' p cs := by
  have hkeeps := mkdir_keeps hmk
  obtain ⟨r, hnew, hdir, hother, hw⟩ := mkdir_made hmk
  refine ⟨fun q x hx => ?_, fun q hq hno => ?_⟩
  · have hx' := h.keeps q x hx
    have hne : q ≠ r := by
      rintro rfl
      simp [hnew] at hx'
    rw [hother q hne, hx']
  · by_cases hqr : q = r
    · subst hqr
      exact ⟨hdir, components path, hcs, hstart ▸ hw⟩
    · rw [hother q hqr] at hq ⊢
      obtain ⟨hisDir, ds, hds, hwalk⟩ := h.made q hq hno
      exact ⟨hisDir, ds, hds, walk_of_keeps hkeeps hwalk⟩

/-- A path that ends in one of the slashes of another one. -/
theorem dirsAlong_mem {b : CString} : ∀ {rest buf : CString}, b ∈ dirsAlong buf rest →
    ∃ x y, buf ++ rest = x ++ '/' :: y ∧ b = x ++ ['/'] := by
  intro rest
  induction rest with
  | nil => exact fun h => absurd h (by simp [dirsAlong])
  | cons c rest ih =>
    intro buf h
    rw [dirsAlong] at h
    split_ifs at h with hc
    · subst hc
      rcases List.mem_cons.mp h with rfl | h
      · exact ⟨buf, rest, rfl, rfl⟩
      · obtain ⟨x, y, hxy, hb⟩ := ih h
        exact ⟨x, y, by rw [← hxy]; simp, hb⟩
    · obtain ⟨x, y, hxy, hb⟩ := ih h
      exact ⟨x, y, by rw [← hxy]; simp, hb⟩

/-- The path names of the directories along a path lead along its components. -/
theorem loopDirs_along {dir b : CString} (hb : b ∈ loopDirs [] dir) (cwd : Place) :
    start cwd b = start cwd dir ∧ components b <+: components dir := by
  rcases List.mem_append.mp hb with hb | hb
  · obtain ⟨x, y, hxy, rfl⟩ := dirsAlong_mem hb
    rw [List.nil_append] at hxy
    subst hxy
    constructor
    · have habs : Absolute (x ++ ['/']) ↔ Absolute (x ++ '/' :: y) := by
        cases x with
        | nil => exact Iff.rfl
        | cons c x => exact Iff.rfl
      unfold start
      simp only [habs]
    · rw [components_slash, show x ++ '/' :: y = joined x y from rfl, components_joined]
      exact List.prefix_append _ _
  · split_ifs at hb with hno
    · simp at hb
    · obtain rfl := List.mem_singleton.mp hb
      rw [List.nil_append, components_slash]
      refine ⟨?_, List.prefix_rfl⟩
      have hnil : dir ≠ [] := fun hnil => hno (.inl hnil)
      unfold start
      simp only [show dir ++ ['/'] = joined dir [] from rfl, absolute_joined hnil]

/-- **The loop keeps** what every `mkdir` of its directories keeps. -/
theorem wp_rmkdirLoop_keeps {I : FileSys → Prop} {perm : ℕ} (cwd : Place) (k : ℕ) :
    ∀ {buf rest : CString} {h : List Event} {s : Machine},
    (∀ b ∈ loopDirs buf rest, ∀ fs fs' mode uid gid, I fs →
      fs.mkdir cwd b mode uid gid = .ok fs' → I fs') → I s.fs → s.cwd = cwd →
    wp host n id (rmkdirLoop perm k buf rest)
      ⟨fun _ _ t => I t.fs ∧ t.cwd = cwd, fun _ _ _ => False, fun _ => True⟩ h s := by
  induction k with
  | zero => exact fun _ _ _ => trivial
  | succ k ih =>
    intro buf rest h s hstep hI hcwd
    rw [rmkdirLoop]
    by_cases hnil : rest = []
    · rw [if_pos hnil, wp_pure]
      exact ⟨hI, hcwd⟩
    rw [if_neg hnil]
    by_cases hroom : maxPathLen - buf.length ≤ rest.idxOf '/' + 1
    · rw [if_pos hroom, wp_pure]
      exact ⟨hI, hcwd⟩
    rw [if_neg hroom]
    obtain ⟨c, rest', htake, hdrop, -, -, hloop⟩ := first_component hnil hroom
    rw [htake, hdrop]
    rw [hloop] at hstep
    have hnext : ∀ {h : List Event} {t : Machine}, I t.fs → t.cwd = cwd →
        wp host n id (rmkdirLoop perm k (buf ++ c ++ ['/']) rest')
          ⟨fun _ _ t => I t.fs ∧ t.cwd = cwd, fun _ _ _ => False, fun _ => True⟩ h t :=
      ih fun b hb => hstep b (List.mem_cons_of_mem _ hb)
    simp only [wp_bind, installMkdir, wp_get]
    refine wp_change (fun e _ => ?_) fun fs hfs => ?_
    · simp only [wp_get, wp_note, wp_pure]
      exact hnext hI hcwd
    · simp only [wp_get, wp_note, wp_pure]
      rw [hcwd] at hfs
      exact hnext (hstep _ List.mem_cons_self _ _ _ _ _ hI hfs) hcwd

/-- A directory is opened where the path leads, if `..` leaves old directories only. -/
def OpensAt (s : Machine) (dir : CString) (t : Machine) : Prop :=
  ∃ d, t.fs.follow s.cwd dir = some d ∧
    ((∀ q ∈ FileSys.leavesAll t.fs s.cwd dir, s.fs.node q ≠ none) → Opens d s.fs t.fs)

theorem chown_ok {fs fs' : FileSys} {cwd : Place} {path : CString} {uid gid : ℕ}
    (h : fs.chown cwd path uid gid = .ok fs') : ∃ p, fs.follow cwd path = some p ∧
      ∀ q, fs'.node q = if q = p then (fs.node q).map (withOwners uid gid) else fs.node q := by
  unfold FileSys.chown at h
  rcases hf : fs.follow cwd path with _ | p
  · simp [hf] at h
  · simp only [hf] at h
    obtain rfl := Except.ok.inj h
    exact ⟨p, rfl, fun q => node_adjust _ q⟩

/-- The owners of a directory are changed when the directories are made. -/
theorem opensAt_of_chown {fs fs' : FileSys} {dir : CString} {uid gid : ℕ}
    (hmade : MadeAlong s.fs fs (start s.cwd dir) (components dir))
    (hown : fs.chown s.cwd dir uid gid = .ok fs') (ht : t.fs = fs') : OpensAt s dir t := by
  subst ht
  obtain ⟨d, hf, hfs⟩ := chown_ok hown
  have hnode : ∀ q x, fs.node q = some x → ∃ x', t.fs.node q = some x' ∧ x'.kind = x.kind := by
    intro q x hx
    rw [hfs]
    split_ifs
    · exact ⟨withOwners uid gid x, by rw [hx, Option.map_some], rfl⟩
    · exact ⟨x, hx, rfl⟩
  have hback : ∀ q, t.fs.node q ≠ none → fs.node q ≠ none := by
    intro q hq hno
    rw [hfs, hno] at hq
    simp at hq
  have hkeeps : Keeps fs t.fs := fun q x hx => by
    obtain ⟨x', hx', hk⟩ := hnode q x hx
    exact ⟨x', hx', congrArg shape hk⟩
  refine ⟨d, follow_of_keeps hkeeps hf, fun hleft => ⟨fun q x hx => ?_, fun q hq hno => ?_⟩⟩
  · exact hnode q x (hmade.keeps q x hx)
  · obtain ⟨hdir, ds, hds, hw⟩ := hmade.made q (hback q hq) hno
    rw [leavesAll_of_keeps hkeeps hf] at hleft
    unfold FileSys.follow at hf
    split_ifs at hf
    obtain ⟨hwalk, -⟩ := Option.filter_eq_some_iff.mp hf
    exact ⟨hkeeps.isDir hdir, suffix_of_walk_through (fun q hq hno => (hmade.made q hq hno).1) hwalk
      hleft hds hw hno⟩

theorem wp_instMkdir {ins : InstallItem Ptr} : wp host n id (instMkdir ins false)
    (donePost fun t => ∃ dir, ins.dir = some dir ∧ OpensAt s (dir.read s.statics) t) h s := by
  simp only [instMkdir, wp_bind]
  refine wp_uidgidLookup (fun ids => ?_) fun e => trivial
  refine wp_deref (fun _ => trivial) fun p hp => ?_
  set dir := p.read s.statics with hdir
  have hrest : ∀ {made : Bool} {h' : List Event} {u : Machine}, u.cwd = s.cwd →
      MadeAlong s.fs u.fs (start s.cwd dir) (components dir) →
      wp host n id (if !made then fail .error "could not create directory" else do
        let owned ← chown dir ids.1 ids.2
        if !owned then
          fail .error "could not set ownership on directory")
        (donePost fun t => ∃ p, ins.dir = some p ∧ OpensAt s (p.read s.statics) t) h' u := by
    intro made h' u hcwd hmade
    cases made with
    | false =>
      simp only [Bool.not_false, if_true, wp_fail]
      exact trivial
    | true =>
      simp only [Bool.not_true, Bool.false_eq_true, if_false, wp_bind]
      refine wp_change (fun e _ => ?_) fun fs hfs => ?_
      · simp only [Bool.not_false, if_true, wp_fail]
        exact trivial
      · simp only [Bool.not_true, Bool.false_eq_true, if_false, wp_pure]
        rw [hcwd] at hfs
        exact ⟨p, hp, opensAt_of_chown hmade hfs rfl⟩
  simp only [Bool.not_false, if_true, installRmkdir, wp_bind, wp_doing]
  split_ifs with hlen
  · simp only [wp_bind, wp_modify, wp_pure]
    exact hrest rfl (madeAlong_refl _ _ _)
  · refine wp_mono (wp_rmkdirLoop_keeps (I := fun fs =>
      MadeAlong s.fs fs (start s.cwd dir) (components dir)) s.cwd _ ?_
        (madeAlong_refl _ _ _) rfl) ?_ (fun _ _ _ hf => absurd hf id) fun _ _ => trivial
    · intro b hb fs fs' mode uid gid hmade hmk
      obtain ⟨hstart, hcs⟩ := loopDirs_along hb s.cwd
      exact hmade.mkdir hstart hcs hmk
    · rintro made h' u ⟨hmade, hcwd⟩
      exact hrest hcwd hmade

/-! ### Items -/

/-- What the installer has done to the files when it is done with an item of these names. -/
def Installs (s : Machine) (names : InstallItem CString) (t : Machine) : Prop :=
  match names.op with
  | .copy | .copyExec => names.dst ≠ none ∧ CopiesTo s (names.dst.getD []) t
  | .symlink | .liblink => names.dir ≠ none ∧ names.dst ≠ none ∧
      LinksTo s (names.dir.getD []) (names.dst.getD []) t
  | .mkdir => names.dir ≠ none ∧ OpensAt s (names.dir.getD []) t

theorem wp_installOper (ins : InstallItem Ptr) :
    wp host n id ((installOpers ins.op).oper ins false)
      (donePost (Installs s (reading s.statics ins))) h s := by
  obtain ⟨op, src, dst, dir, owner, group, perm⟩ := ins
  cases op with
  | copy =>
    refine wp_mono wp_instCopy ?_ (fun _ _ _ => id) fun _ => id
    rintro _ h' t ⟨p, hp, hcopies⟩
    obtain rfl : dst = some p := hp
    exact ⟨Option.some_ne_none _, hcopies⟩
  | copyExec =>
    refine wp_mono wp_instCopy ?_ (fun _ _ _ => id) fun _ => id
    rintro _ h' t ⟨p, hp, hcopies⟩
    obtain rfl : dst = some p := hp
    exact ⟨Option.some_ne_none _, hcopies⟩
  | symlink =>
    refine wp_mono wp_instLink ?_ (fun _ _ _ => id) fun _ => id
    rintro _ h' t ⟨p, q, hp, hq, hlinks⟩
    obtain rfl : dir = some p := hp
    obtain rfl : dst = some q := hq
    exact ⟨Option.some_ne_none _, Option.some_ne_none _, hlinks⟩
  | liblink =>
    refine wp_mono wp_instLink ?_ (fun _ _ _ => id) fun _ => id
    rintro _ h' t ⟨p, q, hp, hq, hlinks⟩
    obtain rfl : dir = some p := hp
    obtain rfl : dst = some q := hq
    exact ⟨Option.some_ne_none _, Option.some_ne_none _, hlinks⟩
  | mkdir =>
    refine wp_mono wp_instMkdir ?_ (fun _ _ _ => id) fun _ => id
    rintro _ h' t ⟨p, hp, hopens⟩
    obtain rfl : dir = some p := hp
    exact ⟨Option.some_ne_none _, hopens⟩

theorem Installs.of_kept {s u t : Machine} {names : InstallItem CString} (h : Installs u names t)
    (hkept : Kept s u) : Installs s names t := by
  unfold Installs CopiesTo LinksTo OpensAt TemporaryFree at h ⊢
  rwa [hkept.fs, hkept.cwd] at h

/-- **What an item has done** that ended with OK. -/
theorem installs_of_done {item : InstallItem CString} (hwhole : ∀ k, host.chunk k = none)
    (hrun : (install (loaded item) false host n s).ending = .done () t) :
    ∃ names, installNames (wordIn s.fs s.cwd) s item = some names ∧ Installs s names t := by
  obtain ⟨bufs, htrans⟩ := wp_installTrans (n := n) (h := []) (s := s) hwhole item
  have hwp : wp host n id (install (loaded item) false) (donePost fun t =>
      ∃ names, installNames (wordIn s.fs s.cwd) s item = some names ∧ Installs s names t) [] s := by
    rw [install, processed, wp_bind]
    refine wp_mono htrans ?_ (fun _ _ _ _ => trivial) fun _ _ => trivial
    rintro ins h' u ⟨hkept, -, hnames⟩
    refine wp_mono (wp_installOper ins) ?_ (fun _ _ _ => id) fun _ => id
    exact fun _ _ t ht => ⟨_, hnames, ht.of_kept hkept⟩
  exact wp_done hwp hrun

/-- The suffixes are the same. -/
structure SameSuffixes (s t : Machine) : Prop where
  execSuffix : t.execSuffix = s.execSuffix
  dlibSuffix : t.dlibSuffix = s.dlibSuffix

instance : IsPreorder Machine SameSuffixes where
  refl _ := ⟨rfl, rfl⟩
  trans _ _ _ h h' := ⟨h'.execSuffix.trans h.execSuffix, h'.dlibSuffix.trans h.dlibSuffix⟩

theorem sameSuffixes_of_placed (s t : Machine) (h : Placed s t) : SameSuffixes s t :=
  ⟨h.execSuffix, h.dlibSuffix⟩

/-- The frame of an item. -/
theorem within_install (ins : InstallItem Ptr) :
    Within Inner Refused SameSuffixes (install ins false) := by
  have hplaced : ∀ {x : Proc Unit}, Within Inner Refused Placed x →
      Within Inner Refused SameSuffixes x := fun hx =>
    hx.mono (fun _ => id) (fun _ => id) sameSuffixes_of_placed
  have hlink : ∀ ins, Within Inner Refused SameSuffixes (instLink ins false) :=
    within_instLink sameSuffixes_of_placed fun _ _ => ⟨rfl, rfl⟩
  refine within_bind ((calm_steady (calm_installTrans ins.op ins)).mono inner_of_ofWork
    (fun _ => id) sameSuffixes_of_placed) fun ins' => ?_
  rcases ins'.op
  · exact hplaced (placed_instCopy ins')
  · exact hplaced (placed_instCopy ins')
  · exact hlink ins'
  · exact hplaced (placed_instMkdir ins')
  · exact hlink ins'

end LuaAdaLoad.Install.Installed
