import LuaAdaLoad.Install.Settled
import LuaAdaLoad.Install.FileChecks
import LuaAdaLoad.Install.Verdict

/-!
# The checker accepts what was installed

What the items have made stays there (`Chain.settled`), and the names of every item are translated by
the checker as they were by the installer. So the checker accepts every item (`passed_of_chain`) and
returns 0 (`instchk_accepts`), if the table can be checked at all (`Checkable`): its modes have
no bit that the checker does not read, no item undoes what another one did, and the checker, which
reads mode and owners behind a link, finds the listed ones there.
-/

namespace LuaAdaLoad.Install.Verified

open LuaAdaLoad.Control.Actions LuaAdaLoad.Control.Weakest LuaAdaLoad.Control.Frames
open LuaAdaLoad.System.Paths LuaAdaLoad.System.FileSystem LuaAdaLoad.System.Walks
open LuaAdaLoad.System.Removals LuaAdaLoad.System.Undoing LuaAdaLoad.Install.Posix
open LuaAdaLoad.Install.Translation LuaAdaLoad.Install.Operators LuaAdaLoad.Install.Programs
open LuaAdaLoad.Install.Calls LuaAdaLoad.Install.TranslatedNames LuaAdaLoad.Install.Effects
open LuaAdaLoad.Install.Deeds LuaAdaLoad.Install.Agreement LuaAdaLoad.Install.Installed
open LuaAdaLoad.Install.Journals LuaAdaLoad.Install.Settled
open LuaAdaLoad.Install.Deinstalled (Suffixed wp_installInit)
open LuaAdaLoad.Install.FileChecks
  (Want seen typeSeen sizeSeen Accepted checkPost)
open LuaAdaLoad.Install.FileCopies (file SameBits)
open LuaAdaLoad.Install.Verdict (statusesOf statusesOf_append statusesOf_inner statusesOf_item
  inner_fileCheck)
open LuaAdaLoad.Install.StartingDirectory
  (Inner inner_of_ofStream calm_inner exitStatus exitStatus_eq_some)

variable {host : Host} {n : ℕ} {h : List Event} {s t : Machine} {fs : FileSys} {cwd : Place}

/-! ### The run of the checker -/

/-- The type that the checker wants. -/
def typeWanted : InstOp → FileType
  | .copy | .copyExec => .file
  | .symlink | .liblink => .symlink
  | .mkdir => .directory

/-- The checker accepts the item of these names. -/
def Passed (host : Host) (fs : FileSys) (cwd : Place) (names : InstallItem CString) : Prop :=
  ∃ src dst ids, idsOf host names.owner names.group = some ids ∧
    (match names.op with
      | .mkdir => names.dir = some src ∧ names.dir = some dst
      | _ => names.src = some src ∧ names.dst = some dst) ∧
    Accepted host fs cwd src dst ⟨typeWanted names.op, names.perm, ids.1, ids.2⟩

/-- Nothing that lasts is changed, and it cannot go wrong. -/
def stillPost (s : Machine) : Post Failure Machine Event Unit :=
  ⟨fun _ _ t => Still s t, fun _ _ _ => False, fun _ => False⟩

theorem wp_countedCheck {ins : InstallItem Ptr} {src dst : Option Ptr} {p q : CString}
    {type : FileType} {ids : ℕ × ℕ} (hfault : ∀ k, host.fault k = none)
    (hids : idsOf host ins.owner ins.group = some ids)
    (hsrc : src.map (Ptr.read s.statics) = some p) (hdst : dst.map (Ptr.read s.statics) = some q)
    (haccept : Accepted host s.fs s.cwd p q ⟨type, ins.perm, ids.1, ids.2⟩) :
    wp host n id (countedCheck ins src dst type) (stillPost s) h s := by
  obtain ⟨src, rfl, rfl⟩ := Option.map_eq_some_iff.mp hsrc
  obtain ⟨dst, rfl, rfl⟩ := Option.map_eq_some_iff.mp hdst
  simp only [countedCheck, wp_bind]
  refine wp_ids (fun ids' hids' => ?_) fun hno => absurd hids (by simp [hno])
  obtain rfl := Option.some.inj (hids'.symm.trans hids)
  simp only [wp_deref_some, wp_attempt]
  have hcheck : wp host n id (fileCheck (src.read s.statics) ins.perm type ids'.1 ids'.2
      (dst.read s.statics)) (checkPost (Accepted host s.fs s.cwd (src.read s.statics)
        (dst.read s.statics) ⟨type, ins.perm, ids'.1, ids'.2⟩)) h s :=
    FileChecks.wp_fileCheck hfault
  refine wp_mono ((inner_fileCheck _ _ _ _ _ _).wp_and hcheck) ?_ ?_ fun _ h => h.1
  · exact fun _ _ _ h => h.2.1
  · exact fun _ _ _ h => absurd haccept h.1

theorem wp_instchkOper {ins : InstallItem Ptr} (hfault : ∀ k, host.fault k = none)
    (hpassed : Passed host s.fs s.cwd (reading s.statics ins)) :
    wp host n id ((instchkOpers ins.op).oper ins false) (stillPost s) h s := by
  obtain ⟨src, dst, ids, hids, hnames, haccept⟩ := hpassed
  obtain ⟨op, src', dst', dir', owner, group, perm⟩ := ins
  cases op with
  | mkdir => exact wp_countedCheck hfault hids hnames.1 hnames.2 haccept
  | _ => exact wp_countedCheck hfault hids hnames.1 hnames.2 haccept

/-- The checker translates the names of an item to names of one that it accepts. -/
def ItemPassed (host : Host) (s : Machine) (item : InstallItem CString) : Prop :=
  ∃ names, checkNames (wordIn s.fs s.cwd) s item = some names ∧ Passed host s.fs s.cwd names

theorem ItemPassed.kept {item : InstallItem CString} (h : ItemPassed host s item)
    (hkept : Kept s t) : ItemPassed host t item := by
  have hnames : installNames (wordIn s.fs s.cwd) t item =
      installNames (wordIn s.fs s.cwd) s item :=
    installNames_congr hkept.execSuffix hkept.dlibSuffix fun _ _ => rfl
  obtain ⟨names, hcheck, hpassed⟩ := h
  refine ⟨names, ?_, ?_⟩
  · rw [hkept.fs, hkept.cwd, ← hcheck]
    unfold checkNames
    rw [hnames]
  · rwa [hkept.fs, hkept.cwd]

theorem wp_installCheck {item : InstallItem CString} (hsound : host.Sound)
    (hitem : ItemPassed host s item) :
    wp host n id (installCheck (loaded item)) (stillPost s) h s := by
  obtain ⟨names, hcheck, hpassed⟩ := hitem
  obtain ⟨bufs, htrans⟩ := wp_instchkTrans (n := n) (h := h) (s := s) hsound.chunk item
  rw [hcheck] at htrans
  rw [installCheck, processed, wp_bind]
  refine wp_mono ((calm_inner (calm_instchkTrans item.op (loaded item))).wp_and htrans) ?_
    (fun _ _ _ hno => absurd (hno.1 hsound) (by simp)) fun _ hno => absurd (hno.1 hsound) (by simp)
  rintro ins h' u ⟨⟨hkept, -, hins⟩, hstill, -⟩
  obtain rfl := Option.some.inj hins
  rw [← hkept.fs, ← hkept.cwd] at hpassed
  refine wp_mono (wp_instchkOper hsound.fault hpassed) ?_ (fun _ _ _ => id) fun _ => id
  exact fun _ _ _ hu => trans_of Still hstill hu

/-- Every item ends with OK, and nothing is reported. -/
def passedPost (h : List Event) (s : Machine) (items : List (InstallItem CString)) :
    Post Failure Machine Event Bool where
  done ok h' t := ok = true ∧ Still s t ∧ ∃ l, h' = h ++ l ∧
    statusesOf l = items.map (fun _ => Status.ok) ∧ ∀ failed total, Event.reported failed total ∉ l
  raised _ _ _ := False
  stopped _ := False

theorem wp_eachItem_passed (hsound : host.Sound) (items : List (InstallItem CString))
    (hitems : ∀ item ∈ items, ItemPassed host s item) :
    wp host n id (eachItem installCheck items) (passedPost h s items) h s := by
  refine wp_eachItem (I := fun pre => (passedPost h s pre).done true)
    ⟨rfl, refl_of Still s, [], by simp, rfl, by simp⟩ (fun _ _ => id) ?_
  rintro pre item post _ t rfl ⟨-, hstill, l, rfl, hl, hsilent⟩
  have hitem := (hitems item (by simp)).kept hstill.toKept
  refine wp_mono ((Verdict.inner_installCheck _).wp_and (wp_installCheck hsound hitem)) ?_
    (fun _ _ _ h => h.1.elim) fun _ h => h.1.elim
  rintro _ h' u ⟨hstill', -, l', rfl, hl'⟩
  simp only [endPost, reduceCtorEq, if_false]
  refine ⟨rfl, trans_of Still hstill hstill',
    l ++ ([.started item t] ++ l' ++ [.finished item .ok u]), by simp, ?_, fun failed total => ?_⟩
  · rw [statusesOf_append, hl, statusesOf_item hl', List.map_append]
    rfl
  · have hno : Event.reported failed total ∉ l' := fun hmem => absurd (hl' _ hmem) id
    simp [hsilent failed total, hno]

/-- The program ends with 0, every item with OK, and nothing is reported or changed. -/
def acceptedPost (s : Machine) (items : List (InstallItem CString)) :
    Post Failure Machine Event ℕ where
  done code h t := code = 0 ∧ t.fs = s.fs ∧ statusesOf h = items.map (fun _ => Status.ok) ∧
    ∀ failed total, Event.reported failed total ∉ h
  raised _ _ _ := False
  stopped _ := False

/-- **The run of the checker** on items that it accepts. -/
theorem wp_instchk {items : List (InstallItem CString)} {content : CString} (hsound : host.Sound)
    (hread : fileContent s.fs s.cwd "conf-sosuffix".toList = some content) (hcontent : content ≠ [])
    (hs : s.failed = 0)
    (hitems : ∀ t, t.fs = s.fs → t.cwd = s.cwd → Suffixed t content →
      ∀ item ∈ items, ItemPassed host t item) :
    wp host n id (instchk items) (acceptedPost s items) [] s := by
  simp only [instchk, afterInit, statusOf, wp_bind, wp_attempt]
  refine wp_mono ((within_installInit _).wp_and (wp_installInit hsound.chunk _)) ?_ ?_ ?_
  · rintro _ h t ⟨⟨content', hread', -, hsuffixed⟩, hload, l, rfl, hl⟩
    obtain rfl := Option.some.inj (hread'.symm.trans hread)
    have hinner : ∀ e ∈ h, Inner e := fun e he => inner_of_ofStream e (hl e he)
    simp only [wp_pure, if_true, wp_bind]
    refine wp_mono (wp_eachItem_passed hsound items (hitems t hload.fs hload.cwd hsuffixed)) ?_
      (fun _ _ _ => id) fun _ => id
    rintro ok h' u ⟨rfl, hstill, l', rfl, hl', hsilent⟩
    have hfailed : u.failed = 0 := (hstill.failed.trans hload.failed).trans hs
    simp only [if_true, wp_bind, wp_get, hfailed, ne_eq, not_true_eq_false, if_false, wp_pure]
    refine ⟨rfl, hstill.fs.trans hload.fs, ?_, fun failed total => ?_⟩
    · rw [statusesOf_append, statusesOf_inner hinner, hl', List.nil_append]
    · rw [List.mem_append, not_or]
      exact ⟨fun hmem => hinner _ hmem, hsilent failed total⟩
  · rintro e h t ⟨hraised, -⟩
    exact absurd (hraised hsound content hread) hcontent
  · rintro h ⟨hstopped, -⟩
    exact hstopped.elim

/-! ### Tables that can be checked -/

variable {e : Start} {names : InstallItem CString} {after starts : List Start} {p : Place}

/-- The item can be checked when it and all later ones are installed.

* What it makes lasts.
* An old directory has the mode that is wanted; a new one gets it.
* Behind a link is a file with the mode and the owners that are wanted of the link. -/
@[mk_iff]
structure Checkable (host : Host) (e : Start) (fs : FileSys) (after : List Start) : Prop where
  lasts : Lasting e fs after
  directory : e.item.op = .mkdir → ∀ d ∈ placeIn fs e,
    (∀ x ∈ e.state.fs.node d, x.kind = .directory ∧ x.mode &&& 493 = e.item.perm) ∧
      (e.state.fs.node d = none → host.masked 1023 e.item.perm &&& 493 = e.item.perm)
  link : IsLink e.item.op → ∃ x ∈ seen fs e.state.cwd e.path, x.mode &&& 493 = e.item.perm ∧
    idsOf host e.item.owner e.item.group = some (x.uid, x.gid)

instance (host : Host) (e : Start) (fs : FileSys) (after : List Start) :
    Decidable (Checkable host e fs after) :=
  decidable_of_iff _ (checkable_iff host e fs after).symm

/-- Every item can be checked. -/
def AllCheckable (host : Host) (fs : FileSys) : List Start → Prop :=
  Along fun e after => Checkable host e fs after

instance (host : Host) (fs : FileSys) (starts : List Start) :
    Decidable (AllCheckable host fs starts) := by
  unfold AllCheckable; infer_instance

theorem seen_eq (fs : FileSys) (cwd : Place) (path : CString) :
    seen fs cwd path = (fs.follow cwd path).bind fs.node := by
  unfold seen FileSys.stat
  rcases (fs.follow cwd path).bind fs.node <;> rfl

/-- The place of a file that is no link is where its path name leads. -/
theorem follow_of_file {path : CString} {x : Node} (hx : fs.node p = some x)
    (hlink : ∀ target, x.kind ≠ .symlink target) (hslash : ¬ Slashed path)
    (he : FileSys.entry fs cwd path = some p) : fs.follow cwd path = some p := by
  obtain ⟨ds, n, dir, hcs, hw, hdir, rfl⟩ := entry_iff.mp he
  have hnil : path ≠ [] := by
    rintro rfl
    simp at hcs
  have hlast : fs.walk false 0 dir [.name n] = some (n :: dir) := by
    rw [walk_entry hdir hx hlink, walk_nil]
  unfold FileSys.follow
  rw [if_neg hnil, hcs]
  exact Option.filter_eq_some_iff.mpr ⟨walk_append hw hlast, decide_eq_true (.inl hslash)⟩

/-- What stands where a path name leads to a name, is seen without following it. -/
theorem lstat_entry {path : CString} {x : Node} (hx : fs.node p = some x)
    (hslash : ¬ Slashed path) (he : FileSys.entry fs cwd path = some p) :
    fs.lstat cwd path = .ok x := by
  obtain ⟨e, hlocate, rfl⟩ := entry_eq_some.mp he
  unfold FileSys.lstat
  rw [if_neg hslash, hlocate, Option.bind_some, hx]

theorem sizeSeen_of_content {path content : CString}
    (hread : fileContent fs cwd path = some content) :
    sizeSeen host fs cwd path = content.length := by
  obtain ⟨p, hp, hcontent⟩ := Option.bind_eq_some_iff.mp hread
  unfold sizeSeen
  rw [seen_eq, hp, Option.bind_some]
  rcases hx : fs.node p with _ | ⟨kind, mode, uid, gid⟩
  · simp [hx, contentOf] at hcontent
  · rw [hx] at hcontent
    cases kind with
    | regular content' =>
      obtain rfl : content' = content := Option.some.inj hcontent
      rfl
    | _ => simp [contentOf] at hcontent

/-! ### What was installed is accepted -/

/-- **A copy is accepted.** -/
theorem accepts_copy {host' : Host} (h : Past host n e s after t) (hop : IsCopy e.item.op)
    (hnames : e.names = some names) :
    ∃ ids, idsOf host names.owner names.group = some ids ∧
      Accepted host' t.fs e.state.cwd (names.src.getD []) e.path
        ⟨.file, names.perm, ids.1, ids.2⟩ := by
  obtain ⟨-, -, ids, p, content, hids, hentry, hslash, hread, hperm, hnode⟩ := h.copy hop hnames
  have hfollow := follow_of_file hnode (by simp [file]) hslash hentry
  have hseen : seen t.fs e.state.cwd e.path = some (file content names.perm ids.1 ids.2) := by
    rw [seen_eq, hfollow, Option.bind_some, hnode]
  refine ⟨ids, hids, _, hseen, ?_, fun _ => sizeSeen_of_content hread, hperm, rfl, rfl⟩
  have htype : typeSeen t.fs e.state.cwd e.path .file =
      (seen t.fs e.state.cwd e.path).bind fun x => typeOf x.kind := rfl
  rw [htype, hseen]
  exact Option.some_ne_none _

/-- **A directory is accepted.** -/
theorem accepts_mkdir {host' : Host} {src : CString} (h : Past host n e s after t)
    (hcheck : Checkable host e t.fs after) (hop : e.item.op = .mkdir)
    (hnames : e.names = some names) :
    ∃ ids, idsOf host names.owner names.group = some ids ∧
      Accepted host' t.fs e.state.cwd src e.path ⟨.directory, names.perm, ids.1, ids.2⟩ := by
  obtain ⟨-, ids, d, hids, hplace, hfollow, hnode⟩ := h.directory hop hnames
  have hperm := (installNames_wants hnames).2.2
  obtain ⟨hwas, hmasked⟩ := hcheck.directory hop d hplace
  obtain ⟨huid, hgid⟩ := ownedNode_ids host names.perm ids (e.state.fs.node d)
  have hx : (ownedNode host names.perm ids (e.state.fs.node d)).kind = .directory ∧
      (ownedNode host names.perm ids (e.state.fs.node d)).mode &&& 493 = names.perm := by
    rcases hd : e.state.fs.node d with _ | y
    · exact ⟨rfl, by rw [hperm]; exact hmasked hd⟩
    · obtain ⟨hkind, hmode⟩ := hwas y hd
      exact ⟨hkind, (owned_bits y).trans (hmode.trans hperm.symm)⟩
  generalize ownedNode host names.perm ids (e.state.fs.node d) = x at hnode huid hgid hx
  have hseen : seen t.fs e.state.cwd e.path = some x := by
    rw [seen_eq, hfollow, Option.bind_some, hnode]
  refine ⟨ids, hids, x, hseen, ?_, fun hfile => absurd hfile (by simp), hx.2, huid, hgid⟩
  have htype : typeSeen t.fs e.state.cwd e.path .directory =
      (seen t.fs e.state.cwd e.path).bind fun x => typeOf x.kind := rfl
  rw [htype, hseen, Option.bind_some, hx.1]
  exact Option.some_ne_none _

/-- **A link is accepted.** -/
theorem accepts_link {host' : Host} {src : CString} (h : Past host n e s after t)
    (hcheck : Checkable host e t.fs after) (hop : IsLink e.item.op)
    (hnames : e.names = some names) :
    ∃ ids, idsOf host names.owner names.group = some ids ∧
      Accepted host' t.fs e.state.cwd src e.path ⟨.symlink, names.perm, ids.1, ids.2⟩ := by
  obtain ⟨howner, hgroup, hperm⟩ := installNames_wants hnames
  obtain ⟨-, d, p, -, -, hentry, hslash, hnode⟩ := h.link hop hnames
  obtain ⟨x, hseen, hmode, hids⟩ := hcheck.link hop
  rw [← howner, ← hgroup] at hids
  refine ⟨_, hids, x, hseen, ?_, fun hfile => absurd hfile (by simp), hmode.trans hperm.symm,
    rfl, rfl⟩
  have htype : typeSeen t.fs e.state.cwd e.path .symlink =
      (t.fs.lstat e.state.cwd e.path).toOption.bind fun x => typeOf x.kind := rfl
  rw [htype, lstat_entry hnode hslash hentry]
  exact Option.some_ne_none _

theorem eq_some_getD {o : Option CString} (h : o ≠ none) : o = some (o.getD []) := by
  obtain ⟨x, rfl⟩ := Option.ne_none_iff_exists'.mp h
  rfl

/-- The names that the checker makes of those of a link. -/
theorem inDirNames_link (hop : IsLink names.op) (hfit : (targetOf names).length < maxPathLen) :
    inDirNames names = some { names with dst := some (targetOf names) } := by
  have htarget : targetOf names = joined (names.dir.getD []) (names.dst.getD []) := by
    rcases hop with hop | hop <;> rw [targetOf, hop]
  rw [inDirNames, ← htarget, snprintf_of_fit hfit]
  rfl

/-- **An item that is installed is accepted**, on a host with the same users. -/
theorem accepts {host' : Host} (h : Past host n e s after t)
    (hcheck : Checkable host e t.fs after)
    (husers : ∀ owner group, idsOf host' owner group = idsOf host owner group) {u : Machine}
    (hfs : u.fs = t.fs) (hcwd : u.cwd = e.state.cwd) (hsuffixes : SameSuffixes e.state u) :
    ItemPassed host' u e.item := by
  obtain ⟨names, hnames, hinstalls⟩ := installs_of_done h.whole h.head
  replace hnames : e.names = some names := hnames
  have htranslated := h.translated hnames (by rw [hfs]) hcwd hsuffixes
  have hop : names.op = e.item.op := installNames_op hnames
  unfold Installs at hinstalls
  rw [hop] at hinstalls
  unfold ItemPassed Passed checkNames
  rw [htranslated, hfs, hcwd]
  have hcopy : IsCopy e.item.op → names.dst ≠ none →
      ∃ src dst ids, idsOf host' names.owner names.group = some ids ∧
        (names.src = some src ∧ names.dst = some dst) ∧
        Accepted host' t.fs e.state.cwd src dst ⟨.file, names.perm, ids.1, ids.2⟩ := by
    intro hcopy hdst
    obtain ⟨hsrc, hpath, -⟩ := h.copy hcopy hnames
    obtain ⟨ids, hids, haccept⟩ := accepts_copy h hcopy hnames
    rw [hpath] at haccept
    exact ⟨_, _, ids, (husers _ _).trans hids, ⟨eq_some_getD hsrc, eq_some_getD hdst⟩, haccept⟩
  have hlink : IsLink e.item.op → ∃ names', inDirNames names = some names' ∧
      names'.op = names.op ∧ ∃ src dst ids, idsOf host' names'.owner names'.group = some ids ∧
        (names'.src = some src ∧ names'.dst = some dst) ∧
        Accepted host' t.fs e.state.cwd src dst ⟨.symlink, names'.perm, ids.1, ids.2⟩ := by
    intro hlink
    obtain ⟨hsrc, -⟩ := h.link hlink hnames
    obtain ⟨ids, hids, haccept⟩ := accepts_link h hcheck hlink hnames
    have hfit := (h.plain.first.link hlink).1
    rw [Start.path_eq hnames] at haccept hfit
    exact ⟨_, inDirNames_link (hop ▸ hlink) hfit, rfl, _, _, ids, (husers _ _).trans hids,
      ⟨eq_some_getD hsrc, rfl⟩, haccept⟩
  cases hcase : e.item.op with
  | copy =>
    rw [hcase] at hinstalls hop
    refine ⟨names, rfl, ?_⟩
    rw [hop]
    exact hcopy (.inl hcase) hinstalls.1
  | copyExec =>
    rw [hcase] at hinstalls hop
    refine ⟨names, rfl, ?_⟩
    rw [hop]
    exact hcopy (.inr hcase) hinstalls.1
  | symlink =>
    rw [hcase] at hop
    obtain ⟨names', hin, hop', hrest⟩ := hlink (.inl hcase)
    refine ⟨names', hin, ?_⟩
    rw [hop', hop]
    exact hrest
  | liblink =>
    rw [hcase] at hop
    obtain ⟨names', hin, hop', hrest⟩ := hlink (.inr hcase)
    refine ⟨names', hin, ?_⟩
    rw [hop', hop]
    exact hrest
  | mkdir =>
    rw [hcase] at hinstalls hop
    obtain ⟨hpath, -⟩ := h.directory hcase hnames
    obtain ⟨ids, hids, haccept⟩ := accepts_mkdir h hcheck hcase hnames
    rw [hpath] at haccept
    refine ⟨names, rfl, names.dir.getD [], names.dir.getD [], ids, (husers _ _).trans hids, ?_, ?_⟩
    · rw [hop]
      exact ⟨eq_some_getD hinstalls.1, eq_some_getD hinstalls.1⟩
    · rw [hop]
      exact haccept

/-- Every item of a chain is accepted when the chain is done. -/
theorem passed_of_chain {host' : Host} (hwhole : ∀ k, host.chunk k = none)
    (husers : ∀ owner group, idsOf host' owner group = idsOf host owner group)
    (hchain : Chain host n s starts t) (hplain : AllPlain t.fs starts)
    (hcheckable : AllCheckable host t.fs starts) {u : Machine} (hfs : u.fs = t.fs)
    (hcwd : u.cwd = s.cwd) (hsuffixes : SameSuffixes s u) :
    ∀ item ∈ starts.map Start.item, ItemPassed host' u item := by
  induction hchain with
  | nil s => simp
  | @cons item s s₁ t starts head tail ih =>
    obtain ⟨hfirst, hrest⟩ := along_cons.mp hcheckable
    obtain ⟨hcwd₁, hsuffixes₁⟩ := place_of_done head
    have hback : SameSuffixes s₁ u := ⟨hsuffixes.execSuffix.trans hsuffixes₁.execSuffix.symm,
      hsuffixes.dlibSuffix.trans hsuffixes₁.dlibSuffix.symm⟩
    have hpast : Past host n ⟨item, s⟩ s₁ starts t := ⟨hwhole, head, tail, hplain, hfirst.lasts⟩
    rw [List.map_cons, List.forall_mem_cons]
    exact ⟨accepts hpast hfirst husers hfs hcwd hsuffixes,
      ih hplain.rest hrest hfs (hcwd.trans hcwd₁.symm) hback⟩

/-! ### Both programs -/

/-- **The checker accepts what was installed.** -/
theorem instchk_accepts {insthier : List (InstallItem CString)} {fs₀ : FileSys} {host' : Host}
    (n' : ℕ) (hwhole : ∀ k, host.chunk k = none) (hsound : host'.Sound)
    (husers : ∀ owner group, idsOf host' owner group = idsOf host owner group)
    (hrun : (installer insthier false host n (Machine.initial fs₀ cwd)).ending = .done 0 t)
    (hok : AllOk (installer insthier false host n (Machine.initial fs₀ cwd)).log)
    (hstarts : startsOf (installer insthier false host n (Machine.initial fs₀ cwd)).log = starts)
    (hsuffix : ∀ p ∈ fs₀.follow cwd "conf-sosuffix".toList, ∀ e ∈ starts, e.target ≠ some p)
    (hplain : AllPlain t.fs starts) (hcheckable : AllCheckable host t.fs starts) :
    ∃ u log, instchk insthier host' n' (Machine.initial t.fs cwd) = ⟨log, .done 0 u⟩ ∧
      u.fs = t.fs ∧ statusesOf log = insthier.map (fun _ => Status.ok) ∧
      ∀ failed total, Event.reported failed total ∉ log := by
  obtain ⟨s, content, rfl, hscwd, hsuffixed, hcontent, hread, hitems, hchain⟩ :=
    chain_of_installer hwhole hrun hok hstarts
  have hread := Chain.reads hchain hwhole hplain hread hsuffix
  have hbackward : wp host' n' id (instchk insthier)
      (acceptedPost (Machine.initial t.fs cwd) insthier) [] (Machine.initial t.fs cwd) := by
    refine wp_instchk hsound hread hcontent rfl fun u hfs hcwd hsuffixed' => ?_
    rw [← hitems]
    exact passed_of_chain hwhole husers hchain hplain hcheckable hfs (hcwd.trans hscwd.symm)
      (hsuffixed.same hsuffixed')
  unfold wp at hbackward
  rw [List.map_id, List.nil_append] at hbackward
  rcases hend : instchk insthier host' n' (Machine.initial t.fs cwd) with ⟨log, ⟨code, u⟩ | _ | _ | _⟩
    <;> rw [hend] at hbackward
  · obtain ⟨rfl, hfs, hstatuses, hsilent⟩ := hbackward
    exact ⟨u, log, rfl, hfs, hstatuses, hsilent⟩
  · exact hbackward.elim
  · exact hbackward.elim
  · exact hbackward.elim

theorem instchk_accepts_checked : ∃ u log,
    instchk lastingTrial.table Host.quiet 9 (Machine.initial lastingTrial.installed []) =
        ⟨log, .done 0 u⟩ ∧
      u.fs = lastingTrial.installed ∧ statusesOf log = lastingTrial.table.map (fun _ => Status.ok) ∧
      ∀ failed total, Event.reported failed total ∉ log := by
  have hstatus : exitStatus lastingTrial.forward.ending = some 0 := by decide +kernel
  have hok : AllOk lastingTrial.forward.log := by decide +kernel
  have hsuffix : ∀ p ∈ lastingTrial.files.follow [] "conf-sosuffix".toList,
      ∀ e ∈ lastingTrial.journal, e.target ≠ some p := by decide +kernel
  have hplain : AllPlain lastingTrial.installed lastingTrial.journal := by decide +kernel
  have hcheckable : AllCheckable Host.quiet lastingTrial.installed lastingTrial.journal := by
    decide +kernel
  obtain ⟨t, hrun⟩ := exitStatus_eq_some.mp hstatus
  have ht : lastingTrial.installed = t.fs := by
    rw [RoundTrip.Trial.installed, hrun]
    rfl
  rw [ht] at hplain hcheckable ⊢
  exact instchk_accepts 9 (fun _ => rfl) sound_quiet (fun _ _ => rfl) hrun hok rfl hsuffix hplain
    hcheckable

end LuaAdaLoad.Install.Verified
