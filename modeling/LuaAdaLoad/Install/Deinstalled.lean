import LuaAdaLoad.Install.Installed

/-!
# What a deinstalled item has done

On a sound host the deinstaller ends an item with OK or with an error that it goes on after, and
nothing is done to the files but what one `unlink` or one `rmdir` does, whether it succeeds or not
(`Removed`). Both programs start with the suffixes that `install_init` reads from a file.
-/

namespace LuaAdaLoad.Install.Deinstalled

open LuaAdaLoad.Control.Actions LuaAdaLoad.Control.Weakest LuaAdaLoad.Control.Frames
open LuaAdaLoad.System.Paths LuaAdaLoad.System.FileSystem LuaAdaLoad.System.Removals
open LuaAdaLoad.Install.Posix LuaAdaLoad.Install.Translation LuaAdaLoad.Install.Operators
open LuaAdaLoad.Install.Programs LuaAdaLoad.Install.Calls LuaAdaLoad.Install.TranslatedNames
open LuaAdaLoad.Install.Deeds LuaAdaLoad.Install.Agreement LuaAdaLoad.Install.Installed
open LuaAdaLoad.Install.Effects (wp_processItem)

variable {host : Host} {n : ℕ} {h : List Event} {s t : Machine}

/-! ### Initialisation -/

/-- The suffixes that the contents of the suffix file give. -/
structure Suffixed (s : Machine) (content : CString) : Prop where
  execSuffix : s.execSuffix = []
  dlibSuffix : s.dlibSuffix = suffixSanitize ('.' :: content.take 14)

theorem Suffixed.kept {content : CString} (hs : Suffixed s content) (h : SameSuffixes s t) :
    Suffixed t content :=
  ⟨h.execSuffix.trans hs.execSuffix, h.dlibSuffix.trans hs.dlibSuffix⟩

theorem Suffixed.same {content : CString} (hs : Suffixed s content) (ht : Suffixed t content) :
    SameSuffixes s t :=
  ⟨ht.execSuffix.trans hs.execSuffix.symm, ht.dlibSuffix.trans hs.dlibSuffix.symm⟩

/-- The initialisation succeeds just if there is something in the suffix file. -/
def initPost (host : Host) (s : Machine) (suffixFile : String) : Post Failure Machine Event Unit where
  done _ _ t := ∃ content, fileContent s.fs s.cwd suffixFile.toList = some content ∧
    content ≠ [] ∧ Suffixed t content
  raised _ _ _ := host.Sound →
    ∀ content, fileContent s.fs s.cwd suffixFile.toList = some content → content = []
  stopped _ := False

theorem wp_installInit (hwhole : ∀ k, host.chunk k = none) (suffixFile : String) :
    wp host n id (installInit suffixFile) (initPost host s suffixFile) h s := by
  rw [installInit, wp_bind]
  refine wp_fopenRead (fun e hno => ?_) fun p hp k t hidle hk => ?_
  · simp only [Option.isNone_none, if_true, wp_fail]
    intro hsound content hcontent
    rw [fileContent, hno hsound] at hcontent
    simp at hcontent
  have hcontent : fileContent s.fs s.cwd suffixFile.toList = contentOf (t.fs.node p) := by
    rw [fileContent, hp, Option.bind_some, hidle.fs]
  simp only [Option.isNone_some, Bool.false_eq_true, if_false, wp_bind, wp_modify]
  refine wp_fread_start hwhole hk (fun content hc f u hu hf _ => ?_) fun hno f u hu hf _ => ?_
  · have hread := hcontent.trans hc
    by_cases hnil : content.take 14 = []
    · have hraised : host.Sound → ∀ content',
          fileContent s.fs s.cwd suffixFile.toList = some content' → content' = [] := by
        rintro - content' hcontent'
        obtain rfl := Option.some.inj (hread.symm.trans hcontent')
        simpa using hnil
      simp only [if_pos hnil, wp_bind, wp_ferror hf, wp_feof hf]
      refine wp_fclose hf fun b v _ _ => ?_
      split_ifs <;> simp only [wp_fail] <;> exact hraised
    · simp only [if_neg hnil, wp_bind, wp_modify]
      refine wp_fclose hf fun b v hv hb => ?_
      have hne : content ≠ [] := by
        rintro rfl
        exact hnil rfl
      cases b with
      | true =>
        simp only [Bool.not_true, Bool.false_eq_true, if_false, wp_modify]
        exact ⟨content, hread, hne, rfl, hv.dlibSuffix⟩
      | false =>
        simp only [Bool.not_false, if_true, wp_fail]
        exact fun hsound => absurd (hb hsound) (by simp)
  · have hraised : host.Sound → ∀ content,
        fileContent s.fs s.cwd suffixFile.toList = some content → content = [] := by
      intro hsound content hread
      rw [hcontent, hno hsound] at hread
      simp at hread
    simp only [if_true, wp_bind, wp_ferror hf, wp_feof hf]
    refine wp_fclose hf fun b v _ _ => ?_
    split_ifs <;> simp only [wp_fail] <;> exact hraised

/-! ### Operators -/

/-- The item has the names that its operator reads, and they fit. -/
def Ready (names : InstallItem CString) : Prop :=
  match names.op with
  | .copy | .copyExec => names.dst ≠ none
  | .symlink | .liblink => names.dir ≠ none ∧ names.dst ≠ none ∧
      (targetOf names).length < maxPathLen
  | .mkdir => names.dir ≠ none

/-- The files without what an item of these names makes. -/
def FileSys.removed (fs : FileSys) (cwd : Place) (names : InstallItem CString) : FileSys :=
  match names.op with
  | .mkdir => FileSys.afterRmdir fs cwd (targetOf names)
  | .copy | .copyExec | .symlink | .liblink => FileSys.afterUnlink fs cwd (targetOf names)

/-- What the item makes is taken away, and nothing else is different. -/
structure Removed (s : Machine) (names : InstallItem CString) (t : Machine) : Prop where
  fs : t.fs = FileSys.removed s.fs s.cwd names
  cwd : t.cwd = s.cwd
  suffixes : SameSuffixes s t

/-- An error is none that ends the program. -/
def removedPost (s : Machine) (names : InstallItem CString) : Post Failure Machine Event Unit where
  done _ _ t := Removed s names t
  raised e _ t := e.status ≠ .fatal ∧ Removed s names t
  stopped _ := False

/-- The end of the deinstall operators: a call, and an error if it fails. -/
theorem wp_removal {f : Host → Machine → Except Errno FileSys} {message : String}
    {names : InstallItem CString} (hsound : host.Sound)
    (hok : ∀ fs, f host s = .ok fs → fs = FileSys.removed s.fs s.cwd names)
    (herror : (∀ fs, f host s ≠ .ok fs) → s.fs = FileSys.removed s.fs s.cwd names) :
    wp host n id (do
      let gone ← change f
      if !gone then
        fail .error message) (removedPost s names) h s := by
  rw [wp_bind]
  refine wp_change (fun e he => ?_) fun fs hfs => ?_
  · simp only [Bool.not_false, if_true, wp_fail]
    exact ⟨by simp, herror (he hsound), rfl, rfl, rfl⟩
  · simp only [Bool.not_true, Bool.false_eq_true, if_false, wp_pure]
    exact ⟨hok fs hfs, rfl, rfl, rfl⟩

theorem wp_unlinkTarget {names : InstallItem CString} {message : String} (hsound : host.Sound)
    (hop : names.op ≠ .mkdir) :
    wp host n id (do
      let gone ← unlink (targetOf names)
      if !gone then
        fail .error message) (removedPost s names) h s := by
  have hremoved : FileSys.removed s.fs s.cwd names =
      FileSys.afterUnlink s.fs s.cwd (targetOf names) := by
    unfold FileSys.removed
    split
    · exact absurd ‹_› hop
    all_goals rfl
  refine wp_removal hsound (fun fs hfs => ?_) fun hno => ?_
  · rw [hremoved, FileSys.afterUnlink, hfs]
  · rw [hremoved, FileSys.afterUnlink]
    rcases hun : s.fs.unlink s.cwd (targetOf names) with e | fs
    · rfl
    · exact absurd hun (hno fs)

theorem wp_rmdirTarget {names : InstallItem CString} {message : String} (hsound : host.Sound)
    (hop : names.op = .mkdir) :
    wp host n id (do
      let gone ← rmdir (targetOf names)
      if !gone then
        fail .error message) (removedPost s names) h s := by
  have hremoved : FileSys.removed s.fs s.cwd names =
      FileSys.afterRmdir s.fs s.cwd (targetOf names) := by
    rw [FileSys.removed, hop]
  refine wp_removal hsound (fun fs hfs => ?_) fun hno => ?_
  · rw [hremoved, FileSys.afterRmdir, hfs]
  · rw [hremoved, FileSys.afterRmdir]
    rcases hrm : s.fs.rmdir s.cwd (targetOf names) with e | fs
    · rfl
    · exact absurd hrm (hno fs)

theorem wp_deinstCopy_removed {ins : InstallItem Ptr} (hsound : host.Sound)
    (hop : ins.op = .copy ∨ ins.op = .copyExec) (hdst : ins.dst ≠ none) :
    wp host n id (deinstCopy ins false) (removedPost s (reading s.statics ins)) h s := by
  obtain ⟨dst, hdst⟩ := Option.ne_none_iff_exists'.mp hdst
  have htarget : dst.read s.statics = targetOf (reading s.statics ins) := by
    rcases hop with hop | hop <;> simp [targetOf, reading, hop, hdst]
  have hmkdir : (reading s.statics ins).op ≠ .mkdir := by
    rcases hop with hop | hop <;> simp [reading, hop]
  simp only [deinstCopy, hdst, wp_bind, wp_deref_some, Bool.not_false, if_true, wp_doing, htarget]
  rw [← wp_bind]
  exact wp_unlinkTarget hsound hmkdir

theorem wp_deinstLink_removed {ins : InstallItem Ptr} (hsound : host.Sound)
    (hop : ins.op = .symlink ∨ ins.op = .liblink) (hdir : ins.dir ≠ none) (hdst : ins.dst ≠ none)
    (hfit : (targetOf (reading s.statics ins)).length < maxPathLen) :
    wp host n id (deinstLink ins false) (removedPost s (reading s.statics ins)) h s := by
  obtain ⟨dir, hdir⟩ := Option.ne_none_iff_exists'.mp hdir
  obtain ⟨dst, hdst⟩ := Option.ne_none_iff_exists'.mp hdst
  have htarget : joined (dir.read s.statics) (dst.read s.statics) =
      targetOf (reading s.statics ins) := by
    rcases hop with hop | hop <;> simp [targetOf, reading, hop, hdir, hdst]
  have hmkdir : (reading s.statics ins).op ≠ .mkdir := by
    rcases hop with hop | hop <;> simp [reading, hop]
  simp only [deinstLink, hdir, hdst, wp_bind, wp_deref_some, Bool.not_false, if_true, htarget,
    snprintf_of_fit hfit, wp_doing]
  rw [← wp_bind]
  exact wp_unlinkTarget hsound hmkdir

theorem wp_deinstMkdir_removed {ins : InstallItem Ptr} (hsound : host.Sound)
    (hop : ins.op = .mkdir) (hdir : ins.dir ≠ none) :
    wp host n id (deinstMkdir ins false) (removedPost s (reading s.statics ins)) h s := by
  obtain ⟨dir, hdir⟩ := Option.ne_none_iff_exists'.mp hdir
  have htarget : dir.read s.statics = targetOf (reading s.statics ins) := by
    simp [targetOf, reading, hop, hdir]
  simp only [deinstMkdir, hdir, wp_bind, wp_deref_some, Bool.not_false, if_true, wp_doing, htarget]
  rw [← wp_bind]
  exact wp_rmdirTarget hsound hop

theorem wp_deinstOper_removed (ins : InstallItem Ptr) (hsound : host.Sound)
    (hready : Ready (reading s.statics ins)) :
    wp host n id ((deinstOpers ins.op).oper ins false)
      (removedPost s (reading s.statics ins)) h s := by
  have hmap : ∀ o : Option Ptr, o.map (Ptr.read s.statics) ≠ none → o ≠ none := fun o ho => by
    simpa using ho
  have hop : (reading s.statics ins).op = ins.op := rfl
  unfold Ready at hready
  cases hcase : ins.op with
  | copy =>
    rw [hop, hcase] at hready
    exact wp_deinstCopy_removed hsound (.inl hcase) (hmap _ hready)
  | copyExec =>
    rw [hop, hcase] at hready
    exact wp_deinstCopy_removed hsound (.inr hcase) (hmap _ hready)
  | symlink =>
    rw [hop, hcase] at hready
    exact wp_deinstLink_removed hsound (.inl hcase) (hmap _ hready.1) (hmap _ hready.2.1) hready.2.2
  | liblink =>
    rw [hop, hcase] at hready
    exact wp_deinstLink_removed hsound (.inr hcase) (hmap _ hready.1) (hmap _ hready.2.1) hready.2.2
  | mkdir =>
    rw [hop, hcase] at hready
    exact wp_deinstMkdir_removed hsound hcase (hmap _ hready)

/-! ### Items -/

theorem Removed.of_kept {u : Machine} {names : InstallItem CString} (h : Removed u names t)
    (hkept : Kept s u) : Removed s names t where
  fs := by rw [h.fs, hkept.fs, hkept.cwd]
  cwd := h.cwd.trans hkept.cwd
  suffixes := trans_of SameSuffixes ⟨hkept.execSuffix, hkept.dlibSuffix⟩ h.suffixes

/-- **What is done to an item** of these names. -/
theorem wp_deinstall {item names : InstallItem CString} (hsound : host.Sound)
    (hnames : installNames (wordIn s.fs s.cwd) s item = some names) (hready : Ready names) :
    wp host n id (deinstall (loaded item) false) (removedPost s names) h s := by
  obtain ⟨bufs, htrans⟩ := wp_installTrans (n := n) (h := h) (s := s) hsound.chunk item
  rw [hnames, ← deinstTrans_eq] at htrans
  rw [deinstall, processed, wp_bind]
  refine wp_mono htrans ?_ (fun _ _ _ hno => absurd (hno hsound) (by simp)) fun _ hno =>
    absurd (hno hsound) (by simp)
  rintro ins h' u ⟨hkept, -, hins⟩
  obtain rfl := Option.some.inj hins
  refine wp_mono (wp_deinstOper_removed ins hsound hready) ?_ ?_ fun _ => id
  · exact fun _ _ _ hremoved => hremoved.of_kept hkept
  · exact fun _ _ _ hremoved => ⟨hremoved.1, hremoved.2.of_kept hkept⟩

theorem wp_processItem_removed {item names : InstallItem CString} (hsound : host.Sound)
    (hnames : installNames (wordIn s.fs s.cwd) s item = some names) (hready : Ready names) :
    wp host n id (processItem (fun ins => deinstall ins false) item)
      ⟨fun ok _ t => ok = true ∧ Removed s names t, fun _ _ _ => False, fun _ => False⟩ h s := by
  refine wp_processItem (wp_mono (wp_deinstall hsound hnames hready) ?_ ?_ fun _ => id)
  · exact fun _ _ _ hremoved => ⟨by decide, hremoved⟩
  · exact fun e _ _ hremoved => ⟨decide_eq_true hremoved.1, hremoved.2⟩

end LuaAdaLoad.Install.Deinstalled
