import LuaAdaLoad.Install.RoundTrip

/-!
# What an item leaves, with modes and owners

`Installs` says where an item puts its file. Here is what the file is: a copy has the contents of its
source, the mode that is asked for and its owners; a new directory has its owners and, as far as the
umask allows, the mode that is asked for; where a file of any kind stood in the place of a directory
this file gets the owners (`Does`). What an item has made is not changed by later items that make
something else (`Chain.settled`), so that it is there when all is installed (`Past.copy`,
`Past.directory`, `Past.link`, `installer_installs`).
-/

namespace LuaAdaLoad.Install.Settled

open LuaAdaLoad.Control.Actions LuaAdaLoad.Control.Weakest LuaAdaLoad.System.Paths
open LuaAdaLoad.System.FileSystem LuaAdaLoad.System.Walks LuaAdaLoad.System.Removals
open LuaAdaLoad.System.Undoing LuaAdaLoad.Install.Posix LuaAdaLoad.Install.Translation
open LuaAdaLoad.Install.Operators LuaAdaLoad.Install.Calls LuaAdaLoad.Install.TranslatedNames
open LuaAdaLoad.Install.Effects LuaAdaLoad.Install.Deeds LuaAdaLoad.Install.Agreement LuaAdaLoad.Install.Directories
open LuaAdaLoad.Install.Installed LuaAdaLoad.Install.Journals
open LuaAdaLoad.Install.FileCopies (file SameBits)
open LuaAdaLoad.Install.Deinstalled (Suffixed)
open LuaAdaLoad.Install.Programs (installer)
open LuaAdaLoad.Install.StartingDirectory (exitStatus exitStatus_eq_some)

variable {host : Host} {n : ℕ} {h : List Event} {s t u : Machine}

/-! ### Owners and modes -/

/-- The owners that are asked for. -/
def idsOf (host : Host) (owner group : Option CString) : Option (ℕ × ℕ) :=
  (owner.elim (some host.uid) host.users).bind fun uid =>
    (group.elim (some host.gid) host.groups).map fun gid => (uid, gid)

theorem wp_ids {owner group : Option CString} {Q : Post Failure Machine Event (ℕ × ℕ)}
    (hdone : ∀ ids, idsOf host owner group = some ids → Q.done ids h s)
    (hfail : idsOf host owner group = none → ∀ e, Q.raised e h s) :
    wp host n id (uidgidLookup owner group) Q h s := by
  unfold idsOf at hdone hfail
  simp only [uidgidLookup, uidLookup, gidLookup, wp_bind, wp_ask, wp_pure]
  rcases huid : owner.elim (some host.uid) host.users with _ | uid
  · exact wp_fail.mpr (hfail (by rw [huid]; rfl) _)
  · simp only [wp_bind, wp_ask, wp_pure]
    rcases hgid : group.elim (some host.gid) host.groups with _ | gid
    · exact wp_fail.mpr (hfail (by rw [huid, hgid]; rfl) _)
    · exact (wp_pure _).mpr (hdone _ (by rw [huid, hgid]; rfl))

/-- The bits of `0755` are none of the set-ID bits. -/
theorem owned_bits (x : Node) : ownedMode x &&& 493 = x.mode &&& 493 :=
  ownedMode_and x (by decide)

/-- Set-ID bits are not asked for by a mode in `0755`. -/
theorem mode_of_sameBits {mode got : ℕ} (h : SameBits mode got) (hmode : mode &&& 493 = mode) :
    got = mode := by
  refine h.2 ?_
  rw [← hmode, Nat.and_assoc]
  simp [setIdBits]

/-! ### What an item does -/

/-- What `inst_mkdir` leaves where its path leads: a new directory with the mode that the umask allows,
or what stood there, whatever its kind. Both get the owners. -/
def ownedNode (host : Host) (perm : ℕ) (ids : ℕ × ℕ) : Option Node → Node
  | none => ⟨.directory, host.masked 1023 perm, ids.1, ids.2⟩
  | some x => withOwners ids.1 ids.2 x

theorem ownedNode_ids (host : Host) (perm : ℕ) (ids : ℕ × ℕ) (old : Option Node) :
    ids.1 = (ownedNode host perm ids old).uid ∧ ids.2 = (ownedNode host perm ids old).gid := by
  cases old <;> exact ⟨rfl, rfl⟩

theorem withOwners_ownedNode (host : Host) (perm : ℕ) (ids : ℕ × ℕ) (old : Option Node) :
    withOwners ids.1 ids.2 (ownedNode host perm ids old) = ownedNode host perm ids old := by
  cases old with
  | none => exact withOwners_directory _ _ _ _ _
  | some x => exact withOwners_again _ _ x

/-- Where the path leads there is a directory, or what stood there; no other old file has changed. -/
structure Owned (host : Host) (s : Machine) (dir : CString) (perm : ℕ) (ids : ℕ × ℕ) (d : Place)
    (t : Machine) : Prop where
  leads : t.fs.follow s.cwd dir = some d
  here : t.fs.node d = some (ownedNode host perm ids (s.fs.node d))
  other : ∀ q x, q ≠ d → s.fs.node q = some x → t.fs.node q = some x

/-- The source was copied to a place, with that mode and those owners. -/
structure CopiedTo (s : Machine) (src dst : CString) (perm : ℕ) (ids : ℕ × ℕ) (p : Place)
    (t : Machine) : Prop where
  entry : FileSys.entry s.fs s.cwd dst = some p
  node : ∃ content got, fileContent s.fs s.cwd src = some content ∧ SameBits perm got ∧
    t.fs.node p = some (file content got ids.1 ids.2)

/-- A link with that text was made in the directory. -/
def LinkedTo (host : Host) (s : Machine) (src dst dir : CString) (t : Machine) : Prop :=
  ∃ d p, s.fs.follow s.cwd dir = some d ∧ FileSys.entry s.fs d dst = some p ∧
    t.fs.node p = some ⟨.symlink src, 511, host.uid, host.gid⟩

/-- What an item of these names has done when it is done. -/
def Does (host : Host) (s : Machine) (names : InstallItem CString) (t : Machine) : Prop :=
  match names.op with
  | .copy | .copyExec => TemporaryFree s (names.dst.getD []) → names.src ≠ none ∧
      ∃ ids p, idsOf host names.owner names.group = some ids ∧
        CopiedTo s (names.src.getD []) (names.dst.getD []) names.perm ids p t
  | .symlink | .liblink => names.src ≠ none ∧
      LinkedTo host s (names.src.getD []) (names.dst.getD []) (names.dir.getD []) t
  | .mkdir => ∃ ids d, idsOf host names.owner names.group = some ids ∧
      Owned host s (names.dir.getD []) names.perm ids d t

theorem wp_fileCopy_copied {src dst : CString} {ids : ℕ × ℕ} {mode : ℕ}
    (hfree : TemporaryFree s dst) :
    wp host n id (fileCopy src dst ids.1 ids.2 mode)
      (donePost fun t => ∃ p, CopiedTo s src dst mode ids p t) h s := by
  rcases htmp : snprintf maxPathLen (dst ++ ".tmp".toList) with _ | tmp
  · unfold fileCopy
    rw [htmp]
    simp only [wp_bind, wp_doing, wp_fail]
    exact trivial
  have hplace := hfree tmp htmp
  refine wp_mono (FileCopies.wp_fileCopy htmp (fun q hq => ?_) fun q hq hsrc => ?_) ?_
    (fun _ _ _ _ => trivial) fun _ _ => trivial
  · rw [hplace q hq]
    intro x hx
    simp at hx
  · exact there_of_follow hsrc (hplace q hq)
  · rintro _ h' t ⟨⟨content, p, got, hcontent, hp, hbits, hnode⟩, -⟩
    exact ⟨p, hp, content, got, hcontent, hbits, hnode⟩

theorem wp_instCopy_does {ins : InstallItem Ptr} (hop : IsCopy ins.op) :
    wp host n id (instCopy ins false) (donePost (Does host s (reading s.statics ins))) h s := by
  have hdoes : ∀ {src dst : Ptr} {ids : ℕ × ℕ} {t : Machine}, ins.src = some src →
      ins.dst = some dst → idsOf host ins.owner ins.group = some ids →
      (TemporaryFree s (dst.read s.statics) →
        ∃ p, CopiedTo s (src.read s.statics) (dst.read s.statics) ins.perm ids p t) →
      Does host s (reading s.statics ins) t := by
    intro src dst ids t hsrc hdst hids hcopied
    obtain ⟨op, src', dst', dir, owner, group, perm⟩ := ins
    obtain rfl : src' = some src := hsrc
    obtain rfl : dst' = some dst := hdst
    have hall : TemporaryFree s (dst.read s.statics) → some (src.read s.statics) ≠ none ∧
        ∃ ids p, idsOf host owner group = some ids ∧
          CopiedTo s (src.read s.statics) (dst.read s.statics) perm ids p t := fun hfree =>
      ⟨Option.some_ne_none _, ids, (hcopied hfree).choose, hids, (hcopied hfree).choose_spec⟩
    rcases hop with hop | hop
    · obtain rfl : op = .copy := hop
      exact hall
    · obtain rfl : op = .copyExec := hop
      exact hall
  simp only [instCopy, wp_bind]
  refine wp_ids (fun ids hids => ?_) fun _ _ => trivial
  refine wp_deref (fun _ => trivial) fun src hsrc => ?_
  refine wp_deref (fun _ => trivial) fun dst hdst => ?_
  have hcopy : ∀ u : Machine, u.fs = s.fs → u.cwd = s.cwd →
      wp host n id (fileCopy (src.read s.statics) (dst.read s.statics) ids.1 ids.2 ins.perm)
        (donePost (Does host s (reading s.statics ins))) h u := by
    intro u hfs hcwd
    by_cases hfree : TemporaryFree s (dst.read s.statics)
    · have hfree' : TemporaryFree u (dst.read s.statics) := by
        unfold TemporaryFree at hfree ⊢
        rwa [hfs, hcwd]
      refine wp_mono (wp_fileCopy_copied hfree') ?_ (fun _ _ _ => id) fun _ => id
      rintro _ h' t ⟨p, hentry, hnode⟩
      rw [hfs, hcwd] at hentry hnode
      exact hdoes hsrc hdst hids fun _ => ⟨p, hentry, hnode⟩
    · exact wp_of_history (fun _ _ t => hdoes hsrc hdst hids fun hf => absurd hf hfree)
        (fun _ _ _ => trivial) fun _ => trivial
  simp only [fileSize, wp_bind, wp_ask]
  refine wp_query (fun e _ => ?_) fun x _ => ?_
  · simp only [wp_pure]
    exact hcopy _ rfl rfl
  · simp only [wp_pure]
    exact hcopy _ rfl rfl

theorem symlink_made {fs fs' : FileSys} {cwd : Place} {target path : CString} {uid gid : ℕ}
    (h : fs.symlink cwd target path uid gid = .ok fs') : ∃ p, FileSys.entry fs cwd path = some p ∧
      fs'.node p = some ⟨.symlink target, 511, uid, gid⟩ := by
  unfold FileSys.symlink at h
  split_ifs at h
  rcases he : fs.locate cwd path with _ | e <;> rw [he] at h
  · exact absurd h (by simp)
  simp only at h
  split_ifs at h with hnew
  obtain rfl := Except.ok.inj h
  refine ⟨e.place, entry_eq_some.mpr ⟨e, he, rfl⟩, ?_⟩
  rw [node_put, if_pos (show e.place = e.name :: e.dir from rfl)]

theorem wp_instLink_does {ins : InstallItem Ptr} (hop : IsLink ins.op) :
    wp host n id (instLink ins false) (donePost (Does host s (reading s.statics ins))) h s := by
  have hdoes : ∀ {src dst dir : Ptr} {t : Machine}, ins.src = some src → ins.dst = some dst →
      ins.dir = some dir →
      LinkedTo host s (src.read s.statics) (dst.read s.statics) (dir.read s.statics) t →
      Does host s (reading s.statics ins) t := by
    intro src dst dir t hsrc hdst hdir hlinked
    obtain ⟨op, src', dst', dir', owner, group, perm⟩ := ins
    obtain rfl : src' = some src := hsrc
    obtain rfl : dst' = some dst := hdst
    obtain rfl : dir' = some dir := hdir
    rcases hop with hop | hop
    · obtain rfl : op = .symlink := hop
      exact ⟨Option.some_ne_none _, hlinked⟩
    · obtain rfl : op = .liblink := hop
      exact ⟨Option.some_ne_none _, hlinked⟩
  rw [instLink, wp_bind]
  refine wp_query (fun e _ => ?_) fun cwd hcwd => ?_
  · simp only [wp_fail]
    exact trivial
  split_ifs at hcwd with hno hlen
  obtain rfl := Except.ok.inj hcwd
  simp only [wp_bind]
  refine wp_deref (fun _ => trivial) fun dir hdir => ?_
  refine wp_chdir (fun e _ => ?_) fun d hd => ?_
  · simp only [Bool.not_false, if_true, wp_fail]
    exact trivial
  simp only [Bool.not_true, Bool.false_eq_true, if_false, wp_bind]
  refine wp_deref (fun _ => trivial) fun src hsrc =>
    wp_deref (fun _ => trivial) fun dst hdst => ?_
  simp only [wp_doing]
  refine wp_change (fun e _ => ?_) fun fs hfs => ?_
  · refine StartingDirectory.wp_restoreCwd hno (fun t _ _ => ?_) fun e t _ _ => trivial
    simp only [Bool.not_false, if_true, wp_fail]
    exact trivial
  · refine StartingDirectory.wp_restoreCwd ((StartingDirectory.symlink_keeps hfs).isDir hno)
      (fun t ht _ => ?_) fun e t _ _ => trivial
    simp only [Bool.not_true, Bool.false_eq_true, if_false, wp_pure]
    obtain ⟨p, hp, hnode⟩ := symlink_made hfs
    refine hdoes hsrc hdst hdir ⟨d, p, follow_of_directory hd, hp, ?_⟩
    rw [ht]
    exact hnode

/-- New directories have the mode that is asked for. -/
def MadeWith (host : Host) (perm : ℕ) (s fs : FileSys) : Prop := ∀ q, fs.node q ≠ none →
  s.node q = none → fs.node q = some ⟨.directory, host.masked 1023 perm, host.uid, host.gid⟩

theorem MadeWith.mkdir {perm : ℕ} {s fs fs' : FileSys} {cwd : Place} {path : CString}
    (h : MadeWith host perm s fs)
    (hmk : fs.mkdir cwd path (host.masked 1023 perm) host.uid host.gid = .ok fs') :
    MadeWith host perm s fs' := by
  obtain ⟨e, -, -, rfl⟩ := mkdir_ok hmk
  intro q hq hno
  rw [node_put] at hq ⊢
  split_ifs at hq ⊢ with hqe
  · rfl
  · exact h q hq hno

/-- The loop makes directories along the path, with the mode that is asked for. -/
theorem wp_rmkdirLoop_made {perm : ℕ} (cwd : Place) {dir : CString} (fs₀ : FileSys) (k : ℕ) :
    ∀ {buf rest : CString} {h : List Event} {s : Machine}, loopDirs buf rest ⊆ loopDirs [] dir →
    MadeAlong fs₀ s.fs (start cwd dir) (components dir) → MadeWith host perm fs₀ s.fs →
    s.cwd = cwd → wp host n id (rmkdirLoop perm k buf rest)
      ⟨fun _ _ t => (MadeAlong fs₀ t.fs (start cwd dir) (components dir) ∧
        MadeWith host perm fs₀ t.fs) ∧ t.cwd = cwd, fun _ _ _ => False, fun _ => True⟩ h s := by
  induction k with
  | zero => exact fun _ _ _ _ => trivial
  | succ k ih =>
    intro buf rest h s hsub halong hwith hcwd
    rw [rmkdirLoop]
    by_cases hnil : rest = []
    · rw [if_pos hnil, wp_pure]
      exact ⟨⟨halong, hwith⟩, hcwd⟩
    rw [if_neg hnil]
    by_cases hroom : maxPathLen - buf.length ≤ rest.idxOf '/' + 1
    · rw [if_pos hroom, wp_pure]
      exact ⟨⟨halong, hwith⟩, hcwd⟩
    rw [if_neg hroom]
    obtain ⟨c, rest', htake, hdrop, -, -, hloop⟩ := first_component hnil hroom
    rw [htake, hdrop]
    rw [hloop] at hsub
    obtain ⟨hmem, hsub⟩ := List.cons_subset.mp hsub
    obtain ⟨hstart, hcs⟩ := loopDirs_along hmem cwd
    simp only [wp_bind, installMkdir, wp_get]
    refine wp_change (fun e _ => ?_) fun fs hfs => ?_
    · simp only [wp_get, wp_note, wp_pure]
      exact ih hsub halong hwith hcwd
    · simp only [wp_get, wp_note, wp_pure]
      rw [hcwd] at hfs
      exact ih hsub (halong.mkdir hstart hcs hfs) (hwith.mkdir hfs) hcwd

/-- The owners are changed when the directories are made. -/
theorem owned_of_chown {fs fs' : FileSys} {dir : CString} {perm : ℕ} {ids : ℕ × ℕ}
    (halong : MadeAlong s.fs fs (start s.cwd dir) (components dir))
    (hwith : MadeWith host perm s.fs fs) (hown : fs.chown s.cwd dir ids.1 ids.2 = .ok fs')
    (ht : t.fs = fs') : ∃ d, Owned host s dir perm ids d t := by
  subst ht
  obtain ⟨d, hf, hfs⟩ := chown_ok hown
  have hkeeps : Keeps fs t.fs := fun q x hx => by
    rw [hfs]
    split_ifs
    · exact ⟨withOwners ids.1 ids.2 x, by rw [hx, Option.map_some], rfl⟩
    · exact ⟨x, hx, rfl⟩
  refine ⟨d, follow_of_keeps hkeeps hf, ?_, fun q x hne hx => ?_⟩
  · rw [hfs, if_pos rfl]
    rcases hd : s.fs.node d with _ | x
    · rw [hwith d (there_of_follow hf) hd, Option.map_some, withOwners_directory]
      rfl
    · rw [halong.keeps d x hd]
      rfl
  · rw [hfs, if_neg hne, halong.keeps q x hx]

theorem wp_instMkdir_does {ins : InstallItem Ptr} (hop : ins.op = .mkdir) :
    wp host n id (instMkdir ins false) (donePost (Does host s (reading s.statics ins))) h s := by
  have hdoes : ∀ {dir : Ptr} {ids : ℕ × ℕ} {t : Machine}, ins.dir = some dir →
      idsOf host ins.owner ins.group = some ids →
      (∃ d, Owned host s (dir.read s.statics) ins.perm ids d t) →
      Does host s (reading s.statics ins) t := by
    rintro dir ids t hdir hids ⟨d, howned⟩
    obtain ⟨op, src, dst, dir', owner, group, perm⟩ := ins
    obtain rfl : dir' = some dir := hdir
    obtain rfl : op = .mkdir := hop
    exact ⟨ids, d, hids, howned⟩
  simp only [instMkdir, wp_bind]
  refine wp_ids (fun ids hids => ?_) fun _ _ => trivial
  refine wp_deref (fun _ => trivial) fun p hp => ?_
  set dir := p.read s.statics with hdir
  have hrest : ∀ {made : Bool} {h' : List Event} {u : Machine}, u.cwd = s.cwd →
      MadeAlong s.fs u.fs (start s.cwd dir) (components dir) → MadeWith host ins.perm s.fs u.fs →
      wp host n id (if !made then fail .error "could not create directory" else do
        let owned ← chown dir ids.1 ids.2
        if !owned then
          fail .error "could not set ownership on directory")
        (donePost (Does host s (reading s.statics ins))) h' u := by
    intro made h' u hcwd halong hwith
    cases made with
    | false =>
      simp only [Bool.not_false, if_true, wp_fail]
      exact trivial
    | true =>
      simp only [Bool.not_true, Bool.false_eq_true, if_false, wp_bind]
      refine wp_change (fun e _ => ?_) fun fs hfs => ?_
      · simp only [Bool.not_false, if_true, wp_fail]
        exact trivial
      · simp only [Bool.not_true, Bool.false_eq_true, if_false, wp_pure]
        rw [hcwd] at hfs
        exact hdoes hp hids (owned_of_chown halong hwith hfs rfl)
  have hnothing : MadeWith host ins.perm s.fs s.fs := fun q hq hno => absurd hno hq
  simp only [Bool.not_false, if_true, installRmkdir, wp_bind, wp_doing]
  split_ifs with hlen
  · simp only [wp_bind, wp_modify, wp_pure]
    exact hrest rfl (madeAlong_refl _ _ _) hnothing
  · refine wp_mono (wp_rmkdirLoop_made s.cwd s.fs _ (List.Subset.refl _) (madeAlong_refl _ _ _)
      hnothing rfl) ?_ (fun _ _ _ hf => absurd hf id) fun _ _ => trivial
    rintro made h' u ⟨⟨halong, hwith⟩, hcwd⟩
    exact hrest hcwd halong hwith

theorem wp_installOper_does (ins : InstallItem Ptr) :
    wp host n id ((installOpers ins.op).oper ins false)
      (donePost (Does host s (reading s.statics ins))) h s := by
  cases hop : ins.op with
  | copy => exact wp_instCopy_does (.inl hop)
  | copyExec => exact wp_instCopy_does (.inr hop)
  | mkdir => exact wp_instMkdir_does hop
  | symlink => exact wp_instLink_does (.inl hop)
  | liblink => exact wp_instLink_does (.inr hop)

theorem Does.of_kept {names : InstallItem CString} (h : Does host u names t) (hkept : Kept s u) :
    Does host s names t := by
  have hcopied : ∀ {src dst : CString} {perm : ℕ} {ids : ℕ × ℕ} {p : Place},
      CopiedTo u src dst perm ids p t → CopiedTo s src dst perm ids p t := by
    rintro src dst perm ids p ⟨hentry, hnode⟩
    rw [hkept.fs, hkept.cwd] at hentry hnode
    exact ⟨hentry, hnode⟩
  have howned : ∀ {dir : CString} {perm : ℕ} {ids : ℕ × ℕ} {d : Place},
      Owned host u dir perm ids d t → Owned host s dir perm ids d t := by
    rintro dir perm ids d ⟨hleads, hold, hnew⟩
    rw [hkept.cwd] at hleads
    rw [hkept.fs] at hold hnew
    exact ⟨hleads, hold, hnew⟩
  have hlinked : ∀ {src dst dir : CString}, LinkedTo host u src dst dir t →
      LinkedTo host s src dst dir t := by
    intro src dst dir hlinked
    unfold LinkedTo at hlinked ⊢
    rwa [hkept.fs, hkept.cwd] at hlinked
  have hcopies : ∀ {dst : CString}, TemporaryFree s dst → TemporaryFree u dst := by
    intro dst hfree
    unfold TemporaryFree at hfree ⊢
    rwa [hkept.fs, hkept.cwd]
  unfold Does at h ⊢
  split at h
  · intro hfree
    obtain ⟨hsrc, ids, p, hids, hc⟩ := h (hcopies hfree)
    exact ⟨hsrc, ids, p, hids, hcopied hc⟩
  · intro hfree
    obtain ⟨hsrc, ids, p, hids, hc⟩ := h (hcopies hfree)
    exact ⟨hsrc, ids, p, hids, hcopied hc⟩
  · exact ⟨h.1, hlinked h.2⟩
  · exact ⟨h.1, hlinked h.2⟩
  · obtain ⟨ids, d, hids, ho⟩ := h
    exact ⟨ids, d, hids, howned ho⟩

/-- **What an item has done** that ended with OK, with modes and owners. -/
theorem does_of_done {item names : InstallItem CString} (hwhole : ∀ k, host.chunk k = none)
    (hnames : installNames (wordIn s.fs s.cwd) s item = some names)
    (hrun : (install (loaded item) false host n s).ending = .done () t) : Does host s names t := by
  obtain ⟨bufs, htrans⟩ := wp_installTrans (n := n) (h := []) (s := s) hwhole item
  have hwp : wp host n id (install (loaded item) false) (donePost fun t => ∃ names,
      installNames (wordIn s.fs s.cwd) s item = some names ∧ Does host s names t) [] s := by
    rw [install, processed, wp_bind]
    refine wp_mono htrans ?_ (fun _ _ _ _ => trivial) fun _ _ => trivial
    rintro ins h' u ⟨hkept, -, hins⟩
    refine wp_mono (wp_installOper_does ins) ?_ (fun _ _ _ => id) fun _ => id
    exact fun _ _ t ht => ⟨_, hins, ht.of_kept hkept⟩
  obtain ⟨names', hnames', hdoes⟩ := wp_done hwp hrun
  obtain rfl := Option.some.inj (hnames'.symm.trans hnames)
  exact hdoes

/-- Owners and mode are not translated. -/
theorem installNames_wants {word : CString → Option CString} {item item' : InstallItem CString}
    (h : installNames word s item = some item') :
    item'.owner = item.owner ∧ item'.group = item.group ∧ item'.perm = item.perm := by
  have hcopy : ∀ {item'}, copyNames word item = some item' →
      item'.owner = item.owner ∧ item'.group = item.group ∧ item'.perm = item.perm := by
    intro item' h
    unfold copyNames at h
    simp only [Option.bind_eq_bind, Option.bind_eq_some_iff, Option.pure_def,
      Option.some.injEq] at h
    obtain ⟨src, -, dir, -, lib, -, dst, -, base, -, path, -, rfl⟩ := h
    exact ⟨rfl, rfl, rfl⟩
  unfold installNames at h
  split at h
  · exact hcopy h
  · obtain ⟨copied, hcopied, hexec⟩ := Option.bind_eq_some_iff.mp h
    unfold execNames at hexec
    simp only [Option.bind_eq_bind, Option.bind_eq_some_iff, Option.pure_def,
      Option.some.injEq] at hexec
    obtain ⟨src, -, dst, -, rfl⟩ := hexec
    obtain ⟨howner, hgroup, hperm⟩ := hcopy hcopied
    exact ⟨howner, hgroup, hperm⟩
  · rw [linkNames_eq h]
    exact ⟨rfl, rfl, rfl⟩
  · obtain rfl := Option.some.inj h
    exact ⟨rfl, rfl, rfl⟩
  · unfold liblinkNames at h
    simp only [Option.bind_eq_bind, Option.bind_eq_some_iff, Option.pure_def,
      Option.some.injEq] at h
    obtain ⟨src, -, dir, -, dst, -, lib, -, base, -, name, -, rfl⟩ := h
    exact ⟨rfl, rfl, rfl⟩

/-! ### What later items leave alone -/

/-- The place of what an item makes, in the file system that all is installed in: the target of a
copy or a link, and where the path of a directory leads. -/
def placeIn (fs : FileSys) (e : Start) : Option Place :=
  match e.item.op with
  | .mkdir => fs.follow e.state.cwd (e.item.dir.getD [])
  | _ => e.target

variable {e : Start} {after : List Start} {fs : FileSys} {p : Place} {x : Node}

/-- An item does not change a file that it does not make; a directory that it opens once more stays
as it is if it has the owners already. -/
theorem node_of_made {names : InstallItem CString} (hmade : e.Made t)
    (hnames : e.names = some names) (hdoes : Does host e.state names t) (hfs : Keeps t.fs fs)
    (hx : e.state.fs.node p = some x)
    (hother : placeIn fs e = some p → e.item.op = .mkdir ∧
      ∀ ids, idsOf host e.item.owner e.item.group = some ids → withOwners ids.1 ids.2 x = x) :
    t.fs.node p = some x := by
  rcases hmade with ⟨hop, q, hq, -, -, hputs⟩ | ⟨hop, hpath, d, hd, -⟩
  · have hne : p ≠ q := by
      rintro rfl
      refine hop (hother ?_).1
      unfold placeIn
      split
      · exact absurd ‹_› hop
      · exact hq
    rw [hputs.other p hne, hx]
  · have hnop : names.op = .mkdir := (installNames_op hnames).trans hop
    have hdir : names.dir.getD [] = e.path := by
      rw [Start.path, hnames, Option.elim_some, targetOf, hnop]
    obtain ⟨howner, hgroup, -⟩ := installNames_wants hnames
    unfold Does at hdoes
    rw [hnop] at hdoes
    obtain ⟨ids, d', hids, howned⟩ := hdoes
    rw [hdir] at howned
    obtain rfl : d' = d := Option.some.inj (howned.leads.symm.trans hd)
    by_cases hpd : p = d'
    · subst hpd
      rw [howner, hgroup] at hids
      rw [howned.here, hx]
      refine congrArg some ((hother ?_).2 ids hids)
      unfold placeIn
      rw [hop, ← hpath]
      exact follow_of_keeps hfs hd
    · exact howned.other p x hpd hx

/-- What an item has made is there when all is installed. -/
theorem Chain.settled {starts : List Start} (h : Chain host n s starts u)
    (hwhole : ∀ k, host.chunk k = none) (hplain : AllPlain fs starts) (hfs : Keeps u.fs fs)
    (hx : s.fs.node p = some x)
    (hother : ∀ e ∈ starts, placeIn fs e = some p → e.item.op = .mkdir ∧
      ∀ ids, idsOf host e.item.owner e.item.group = some ids → withOwners ids.1 ids.2 x = x) :
    u.fs.node p = some x := by
  induction h with
  | nil s => exact hx
  | cons head tail ih =>
    have hkeeps := (tail.keeps hwhole hplain.rest hfs).trans hfs
    obtain ⟨names, hnames, -⟩ := installs_of_done hwhole head
    refine ih hplain.rest hfs ?_ fun e he => hother e (List.mem_cons_of_mem _ he)
    exact node_of_made (made_of_done hwhole hplain.first hkeeps head) hnames
      (does_of_done hwhole hnames head) hkeeps hx (hother _ List.mem_cons_self)

/-! ### What is there when all is installed -/

section Past

variable {after starts : List Start} {names : InstallItem CString}

/-- What an item makes is there as long as the later ones are installed, and can be made again.

* The mode of a copy or a directory has no bit but those in `0755`.
* No later item makes something in the same place, but for a directory that is listed twice, with the
  same owners.
* The source of a copy is no target. -/
@[mk_iff]
structure Lasting (e : Start) (fs : FileSys) (after : List Start) : Prop where
  mode : ¬ IsLink e.item.op → e.item.perm &&& 493 = e.item.perm
  alone : ∀ e' ∈ after, ∀ p ∈ placeIn fs e, placeIn fs e' = some p →
    e.item.op = .mkdir ∧ e'.item.op = .mkdir ∧ e'.item.owner = e.item.owner ∧
      e'.item.group = e.item.group
  source : IsCopy e.item.op → ∀ names ∈ e.names,
    ∀ p ∈ e.state.fs.follow e.state.cwd (names.src.getD []), ∀ e' ∈ e :: after, e'.target ≠ some p

instance (e : Start) (fs : FileSys) (after : List Start) : Decidable (Lasting e fs after) :=
  decidable_of_iff _ (lasting_iff e fs after).symm

/-- Every item has the property, before those that follow it. -/
inductive Along (P : Start → List Start → Prop) : List Start → Prop
  | nil : Along P []
  | cons {e : Start} {after : List Start} (head : P e after) (tail : Along P after) :
    Along P (e :: after)

theorem along_cons {P : Start → List Start → Prop} :
    Along P (e :: after) ↔ P e after ∧ Along P after := by
  constructor
  · rintro ⟨⟩
    exact ⟨‹_›, ‹_›⟩
  · exact fun h => .cons h.1 h.2

instance (P : Start → List Start → Prop) [∀ e after, Decidable (P e after)] :
    (starts : List Start) → Decidable (Along P starts)
  | [] => isTrue .nil
  | _ :: after =>
    have := instDecidableAlong P after
    decidable_of_iff _ along_cons.symm

/-- Everything that the items make is there when all is installed, and can be made again. -/
def AllLasting (fs : FileSys) : List Start → Prop := Along fun e after => Lasting e fs after

instance (fs : FileSys) (starts : List Start) : Decidable (AllLasting fs starts) := by
  unfold AllLasting; infer_instance

/-- An item and all later ones are installed. -/
structure Past (host : Host) (n : ℕ) (e : Start) (s : Machine) (after : List Start)
    (t : Machine) : Prop where
  whole : ∀ k, host.chunk k = none
  head : (install (loaded e.item) false host n e.state).ending = .done () s
  tail : Chain host n s after t
  plain : AllPlain t.fs (e :: after)
  lasts : Lasting e t.fs after

theorem Past.later (h : Past host n e s after t) : Keeps s.fs t.fs :=
  h.tail.keeps h.whole h.plain.rest (keeps_refl t.fs)

theorem Past.made (h : Past host n e s after t) : e.Made s :=
  made_of_done h.whole h.plain.first h.later h.head

theorem Past.does (h : Past host n e s after t) (hnames : e.names = some names) :
    Does host e.state names s := does_of_done h.whole hnames h.head

/-- What is at the place of the item stays as it is, or is a directory that has its owners. -/
theorem Past.settled (h : Past host n e s after t) (hplace : placeIn t.fs e = some p)
    (hx : s.fs.node p = some x)
    (howned : e.item.op = .mkdir → ∀ ids, idsOf host e.item.owner e.item.group = some ids →
      withOwners ids.1 ids.2 x = x) : t.fs.node p = some x := by
  refine Chain.settled h.tail h.whole h.plain.rest (keeps_refl t.fs) hx fun e' he' hplace' => ?_
  obtain ⟨hop, hop', howner, hgroup⟩ := h.lasts.alone e' he' p hplace hplace'
  refine ⟨hop', fun ids hids => howned hop ids ?_⟩
  rwa [howner, hgroup] at hids

/-- A file that is no target is read as it was. -/
theorem Chain.reads {cwd : Place} {path content : CString} (h : Chain host n s starts t)
    (hwhole : ∀ k, host.chunk k = none) (hplain : AllPlain t.fs starts)
    (hread : fileContent s.fs cwd path = some content)
    (hno : ∀ p ∈ s.fs.follow cwd path, ∀ e ∈ starts, e.target ≠ some p) :
    fileContent t.fs cwd path = some content := by
  obtain ⟨p, hp, hcontent⟩ := Option.bind_eq_some_iff.mp hread
  have hkeeps := h.keeps hwhole hplain (keeps_refl t.fs)
  rw [fileContent, follow_of_keeps hkeeps hp, Option.bind_some]
  exact h.content hwhole hplain (keeps_refl t.fs) hcontent (hno p hp)

theorem Past.reads (h : Past host n e s after t) {path content : CString}
    (hread : fileContent e.state.fs e.state.cwd path = some content)
    (hno : ∀ p ∈ e.state.fs.follow e.state.cwd path, ∀ e' ∈ e :: after, e'.target ≠ some p) :
    fileContent t.fs e.state.cwd path = some content :=
  Chain.reads (.cons h.head h.tail) h.whole h.plain hread hno

/-- An item is translated as it was. -/
theorem Past.translated (h : Past host n e s after t) (hnames : e.names = some names)
    (hfs : fileContent u.fs = fileContent t.fs) (hcwd : u.cwd = e.state.cwd)
    (hsuffixes : SameSuffixes e.state u) :
    installNames (wordIn u.fs u.cwd) u e.item = some names := by
  rw [← hnames]
  refine installNames_congr hsuffixes.execSuffix hsuffixes.dlibSuffix fun name hname => ?_
  have hword := word_of_installNames hnames hname
  unfold wordIn at hword ⊢
  rcases hread : fileContent e.state.fs e.state.cwd name with _ | content
  · simp [hread] at hword
  · rw [hfs, hcwd, h.reads hread (h.plain.first.library name hname)]

/-- A target is at the end of its path name. -/
theorem Past.target (h : Past host n e s after t) (hop : e.item.op ≠ .mkdir) :
    ∃ p, e.target = some p ∧ placeIn t.fs e = some p ∧
      FileSys.entry e.state.fs e.state.cwd e.path = some p ∧
      FileSys.entry t.fs e.state.cwd e.path = some p ∧ ¬ Slashed e.path := by
  rcases h.made with ⟨-, p, htarget, hentry, hslash, hputs⟩ | ⟨hmkdir, -⟩
  · refine ⟨p, htarget, ?_, hentry, entry_of_keeps (hputs.keeps.trans h.later) hentry, hslash⟩
    unfold placeIn
    split
    · exact absurd ‹_› hop
    · exact htarget
  · exact absurd hmkdir hop

theorem Start.path_eq (hnames : e.names = some names) : e.path = targetOf names := by
  rw [Start.path, hnames, Option.elim_some]

/-- **The copy** that is there in the end. -/
theorem Past.copy (h : Past host n e s after t) (hop : IsCopy e.item.op)
    (hnames : e.names = some names) : names.src ≠ none ∧ e.path = names.dst.getD [] ∧
      ∃ ids p content, idsOf host names.owner names.group = some ids ∧
        FileSys.entry t.fs e.state.cwd e.path = some p ∧ ¬ Slashed e.path ∧
        fileContent t.fs e.state.cwd (names.src.getD []) = some content ∧
        names.perm &&& 493 = names.perm ∧
        t.fs.node p = some (file content names.perm ids.1 ids.2) := by
  have hnop : IsCopy names.op := installNames_op hnames ▸ hop
  have hmkdir : e.item.op ≠ .mkdir := by
    rcases hop with hop | hop <;> rw [hop] <;> decide
  have hpath : e.path = names.dst.getD [] := by
    rw [Start.path_eq hnames]
    rcases hnop with hnop | hnop <;> rw [targetOf, hnop]
  have hdoes : TemporaryFree e.state e.path → names.src ≠ none ∧ ∃ ids p,
      idsOf host names.owner names.group = some ids ∧
        CopiedTo e.state (names.src.getD []) e.path names.perm ids p s := by
    have hdoes := h.does hnames
    unfold Does at hdoes
    rw [← hpath] at hdoes
    rcases hnop with hnop | hnop <;> rw [hnop] at hdoes <;> exact hdoes
  obtain ⟨hsrc, ids, p, hids, hentry, content, got, hread, hbits, hnode⟩ :=
    hdoes (h.plain.first.temporary hop)
  obtain ⟨p', -, hplace, hentry', hthere, hslash⟩ := h.target hmkdir
  obtain rfl : p = p' := Option.some.inj (hentry.symm.trans hentry')
  have hperm : names.perm &&& 493 = names.perm := by
    have hmode := h.lasts.mode (by rcases hop with hop | hop <;> rw [hop] <;> decide)
    rwa [← (installNames_wants hnames).2.2] at hmode
  obtain rfl : got = names.perm := mode_of_sameBits hbits hperm
  exact ⟨hsrc, hpath, ids, p, content, hids, hthere, hslash,
    h.reads hread (h.lasts.source hop names hnames), hperm,
    h.settled hplace hnode fun h => absurd h hmkdir⟩

/-- **The directory** that is there in the end, or what stood in its place. -/
theorem Past.directory (h : Past host n e s after t) (hop : e.item.op = .mkdir)
    (hnames : e.names = some names) : e.path = names.dir.getD [] ∧
      ∃ ids d, idsOf host names.owner names.group = some ids ∧ placeIn t.fs e = some d ∧
        t.fs.follow e.state.cwd e.path = some d ∧
        t.fs.node d = some (ownedNode host names.perm ids (e.state.fs.node d)) := by
  have hnop : names.op = .mkdir := (installNames_op hnames).trans hop
  have hpath : e.path = names.dir.getD [] := by rw [Start.path_eq hnames, targetOf, hnop]
  obtain ⟨howner, hgroup, -⟩ := installNames_wants hnames
  have hdoes := h.does hnames
  unfold Does at hdoes
  rw [hnop] at hdoes
  obtain ⟨ids, d, hids, howned⟩ := hdoes
  rw [← hpath] at howned
  have hfollow : t.fs.follow e.state.cwd e.path = some d := follow_of_keeps h.later howned.leads
  have hplace : placeIn t.fs e = some d := by
    rcases h.made with ⟨hno, -⟩ | ⟨-, hdir, -⟩
    · exact absurd hop hno
    · unfold placeIn
      rw [hop, ← hdir]
      exact hfollow
  refine ⟨hpath, ids, d, hids, hplace, hfollow, h.settled hplace howned.here fun _ ids' hids' => ?_⟩
  rw [howner, hgroup, hids'] at hids
  obtain rfl := Option.some.inj hids
  exact withOwners_ownedNode host names.perm ids' _

/-- **The link** that is there in the end. -/
theorem Past.link (h : Past host n e s after t) (hop : IsLink e.item.op)
    (hnames : e.names = some names) : names.src ≠ none ∧
      ∃ d p, t.fs.follow e.state.cwd (names.dir.getD []) = some d ∧
        FileSys.entry t.fs d (names.dst.getD []) = some p ∧
        FileSys.entry t.fs e.state.cwd e.path = some p ∧ ¬ Slashed e.path ∧
        t.fs.node p = some ⟨.symlink (names.src.getD []), 511, host.uid, host.gid⟩ := by
  have hmkdir : e.item.op ≠ .mkdir := by
    rcases hop with hop | hop <;> rw [hop] <;> decide
  have hnop : IsLink names.op := installNames_op hnames ▸ hop
  obtain ⟨hsrc, d, p, hd, hp, hnode⟩ : names.src ≠ none ∧
      LinkedTo host e.state (names.src.getD []) (names.dst.getD []) (names.dir.getD []) s := by
    have hdoes := h.does hnames
    unfold Does at hdoes
    rcases hnop with hnop | hnop <;> rw [hnop] at hdoes <;> exact hdoes
  obtain ⟨p', htarget, hplace, -, hthere, hslash⟩ := h.target hmkdir
  have hplaceOf : placeOf e.state names = some p := by
    unfold placeOf
    rcases hnop with hnop | hnop <;> rw [hnop] <;> simp only [hd, Option.bind_some, hp]
  obtain rfl : p = p' := by
    rw [Start.target, hnames, Option.bind_some, hplaceOf] at htarget
    exact Option.some.inj htarget
  have hkeeps := h.made.keeps.trans h.later
  exact ⟨hsrc, d, p, follow_of_keeps hkeeps hd, entry_of_keeps hkeeps hp, hthere, hslash,
    h.settled hplace hnode fun h => absurd h hmkdir⟩

/-- Each item of a chain is followed by those after it. -/
theorem Chain.past (h : Chain host n s starts t) (hwhole : ∀ k, host.chunk k = none)
    (hplain : AllPlain t.fs starts) (hlasting : AllLasting t.fs starts) (he : e ∈ starts) :
    ∃ s' after, Past host n e s' after t := by
  induction h with
  | nil s => exact absurd he List.not_mem_nil
  | @cons item s s₁ t starts head tail ih =>
    obtain ⟨hfirst, hrest⟩ := along_cons.mp hlasting
    rcases List.mem_cons.mp he with rfl | he
    · exact ⟨s₁, starts, hwhole, head, tail, hplain, hfirst⟩
    · exact ih hplain.rest hrest he

/-! ### The whole table -/

/-- What an item of these names makes is there. -/
def There (host : Host) (fs : FileSys) (e : Start) (names : InstallItem CString) : Prop :=
  match names.op with
  | .copy | .copyExec => ∃ ids p content, idsOf host names.owner names.group = some ids ∧
      FileSys.entry fs e.state.cwd (names.dst.getD []) = some p ∧
      fileContent fs e.state.cwd (names.src.getD []) = some content ∧
      fs.node p = some (file content names.perm ids.1 ids.2)
  | .symlink | .liblink => ∃ d p, fs.follow e.state.cwd (names.dir.getD []) = some d ∧
      FileSys.entry fs d (names.dst.getD []) = some p ∧
      fs.node p = some ⟨.symlink (names.src.getD []), 511, host.uid, host.gid⟩
  | .mkdir => ∃ ids d, idsOf host names.owner names.group = some ids ∧
      fs.follow e.state.cwd (names.dir.getD []) = some d ∧
      fs.node d = some (ownedNode host names.perm ids (e.state.fs.node d))

theorem Past.there (h : Past host n e s after t) (hnames : e.names = some names) :
    There host t.fs e names := by
  have hop : names.op = e.item.op := installNames_op hnames
  have hcopy : IsCopy e.item.op → ∃ ids p content, idsOf host names.owner names.group = some ids ∧
      FileSys.entry t.fs e.state.cwd (names.dst.getD []) = some p ∧
      fileContent t.fs e.state.cwd (names.src.getD []) = some content ∧
      t.fs.node p = some (file content names.perm ids.1 ids.2) := by
    intro hcopy
    obtain ⟨-, hpath, ids, p, content, hids, hentry, -, hread, -, hnode⟩ := h.copy hcopy hnames
    exact ⟨ids, p, content, hids, hpath ▸ hentry, hread, hnode⟩
  have hlink : IsLink e.item.op → ∃ d p, t.fs.follow e.state.cwd (names.dir.getD []) = some d ∧
      FileSys.entry t.fs d (names.dst.getD []) = some p ∧
      t.fs.node p = some ⟨.symlink (names.src.getD []), 511, host.uid, host.gid⟩ := by
    intro hlink
    obtain ⟨-, d, p, hd, hp, -, -, hnode⟩ := h.link hlink hnames
    exact ⟨d, p, hd, hp, hnode⟩
  unfold There
  rw [hop]
  cases hcase : e.item.op with
  | copy => exact hcopy (.inl hcase)
  | copyExec => exact hcopy (.inr hcase)
  | symlink => exact hlink (.inl hcase)
  | liblink => exact hlink (.inr hcase)
  | mkdir =>
    obtain ⟨hpath, ids, d, hids, -, hfollow, hnode⟩ := h.directory hcase hnames
    exact ⟨ids, d, hids, hpath ▸ hfollow, hnode⟩

/-- The chain of a run of the installer. -/
theorem chain_of_installer {insthier : List (InstallItem CString)} {fs₀ : FileSys} {cwd : Place}
    (hwhole : ∀ k, host.chunk k = none)
    (hrun : (installer insthier false host n (Machine.initial fs₀ cwd)).ending = .done 0 t)
    (hok : AllOk (installer insthier false host n (Machine.initial fs₀ cwd)).log)
    (hstarts : startsOf (installer insthier false host n (Machine.initial fs₀ cwd)).log = starts) :
    ∃ s content, s.fs = fs₀ ∧ s.cwd = cwd ∧ Suffixed s content ∧ content ≠ [] ∧
      fileContent s.fs cwd "conf-sosuffix".toList = some content ∧
      starts.map Start.item = insthier ∧ Chain host n s starts t := by
  subst hstarts
  have hforward := wp_done (RoundTrip.wp_installer (n := n) (s := Machine.initial fs₀ cwd) hwhole)
    hrun
  rw [List.map_id, List.nil_append] at hforward
  obtain ⟨s, content, hload, hread, hcontent, hsuffixed, hitems, hchain⟩ := hforward rfl hok
  have hs : s.fs = fs₀ := hload.fs
  subst hs
  exact ⟨s, content, rfl, hload.cwd, hsuffixed, hcontent, hread, hitems, hchain⟩

/-- **The installer installs**: what every item makes is there in the end, and what is no item's is
as it was. -/
theorem installer_installs {insthier : List (InstallItem CString)} {fs₀ : FileSys} {cwd : Place}
    (hwhole : ∀ k, host.chunk k = none)
    (hrun : (installer insthier false host n (Machine.initial fs₀ cwd)).ending = .done 0 t)
    (hok : AllOk (installer insthier false host n (Machine.initial fs₀ cwd)).log)
    (hstarts : startsOf (installer insthier false host n (Machine.initial fs₀ cwd)).log = starts)
    (hplain : AllPlain t.fs starts) (hlasting : AllLasting t.fs starts) :
    starts.map Start.item = insthier ∧
      (∀ e ∈ starts, ∃ names, e.names = some names ∧ There host t.fs e names) ∧
      ∀ p x, fs₀.node p = some x → (∀ e ∈ starts, placeIn t.fs e ≠ some p) →
        t.fs.node p = some x := by
  obtain ⟨s, content, rfl, -, -, -, -, hitems, hchain⟩ := chain_of_installer hwhole hrun hok hstarts
  refine ⟨hitems, fun e he => ?_, fun p x hx hother => ?_⟩
  · obtain ⟨s', after, hpast⟩ := Chain.past hchain hwhole hplain hlasting he
    obtain ⟨names, hnames, -⟩ := installs_of_done hwhole hpast.head
    exact ⟨names, hnames, hpast.there hnames⟩
  · exact Chain.settled hchain hwhole hplain (keeps_refl t.fs) hx fun e he hplace =>
      absurd hplace (hother e he)

end Past

/-- A table whose items last, with all operations; the files behind the links are copies. -/
def lastingTrial : RoundTrip.Trial where
  files := RoundTrip.smallFiles
  table := [RoundTrip.itemOf .mkdir none none "lib", RoundTrip.itemOf .mkdir none none "lib/d",
    RoundTrip.itemOf .mkdir none none "x/y", RoundTrip.itemOf .copy "a" none "lib/d",
    RoundTrip.itemOf .copyExec "a" "/bin/b" "x/y", RoundTrip.itemOf .symlink "a" "b" "lib/d",
    RoundTrip.itemOf .liblink "d/a" "liba" "lib", RoundTrip.itemOf .mkdir none none "lib"]

theorem installer_installs_lasting : lastingTrial.journal.map Start.item = lastingTrial.table ∧
    (∀ e ∈ lastingTrial.journal, ∃ names, e.names = some names ∧
      There Host.quiet lastingTrial.installed e names) ∧
    ∀ p x, lastingTrial.files.node p = some x →
      (∀ e ∈ lastingTrial.journal, placeIn lastingTrial.installed e ≠ some p) →
      lastingTrial.installed.node p = some x := by
  have hstatus : exitStatus lastingTrial.forward.ending = some 0 := by decide +kernel
  have hok : AllOk lastingTrial.forward.log := by decide +kernel
  have hplain : AllPlain lastingTrial.installed lastingTrial.journal := by decide +kernel
  have hlasting : AllLasting lastingTrial.installed lastingTrial.journal := by decide +kernel
  obtain ⟨t, hrun⟩ := exitStatus_eq_some.mp hstatus
  have ht : lastingTrial.installed = t.fs := by
    rw [RoundTrip.Trial.installed, hrun]
    rfl
  rw [ht] at hplain hlasting ⊢
  exact installer_installs (fun _ => rfl) hrun hok rfl hplain hlasting

end LuaAdaLoad.Install.Settled
