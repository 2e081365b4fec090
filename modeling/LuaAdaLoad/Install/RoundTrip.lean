import LuaAdaLoad.Install.Deinstalled
import LuaAdaLoad.Install.Journals

/-!
# Deinstalling undoes installing

The deinstaller goes through the table from its end. Before it comes to an item all later ones are
undone (`Stage`), and so the names of the item are translated as they were when it was installed, and
its path name leads to what it made. One item more is then undone (`undoes_removed`), and in the end
all are (`deinstaller_restores`), if the path names are plain ones. The `trials` show why they have
to be.
-/

namespace LuaAdaLoad.Install.RoundTrip

open LuaAdaLoad.Control.Actions LuaAdaLoad.Control.Weakest LuaAdaLoad.Control.Frames
open LuaAdaLoad.System.Paths LuaAdaLoad.System.FileSystem LuaAdaLoad.System.Walks
open LuaAdaLoad.System.Removals LuaAdaLoad.System.Undoing LuaAdaLoad.Install.Posix
open LuaAdaLoad.Install.Translation LuaAdaLoad.Install.Operators LuaAdaLoad.Install.Programs
open LuaAdaLoad.Install.Calls LuaAdaLoad.Install.TranslatedNames LuaAdaLoad.Install.Effects
open LuaAdaLoad.Install.Deeds LuaAdaLoad.Install.Agreement LuaAdaLoad.Install.Installed
open LuaAdaLoad.Install.Deinstalled LuaAdaLoad.Install.Journals
open LuaAdaLoad.Install.StartingDirectory
  (inner_of_ofStream exitStatus exitStatus_eq_some suffixFiles)

variable {host : Host} {n : ℕ} {s t u v v' : Machine} {e : Start} {names : InstallItem CString}
variable {starts before after : List Start} {listed : Place → Prop} {fs : FileSys}

/-! ### What later items leave alone -/

/-- An item makes what stands at the place. -/
def Later (fs : FileSys) (starts : List Start) (p : Place) : Prop :=
  ∃ e ∈ starts, e.target = some p ∨ e.directory fs = some p

theorem isDir_of_directory {d : Place} (h : e.directory fs = some d) : IsDir (fs.node d) := by
  unfold Start.directory at h
  split at h
  · exact of_decide_eq_true (Option.filter_eq_some_iff.mp h).2
  · simp at h

theorem later_cons {p : Place} : Later fs (e :: after) p ↔
    (e.target = some p ∨ e.directory fs = some p) ∨ Later fs after p := by
  unfold Later
  rw [List.exists_mem_cons_iff]

/-- No target of an item is a directory that was there before. -/
theorem not_isDir_of_target {p : Place} (hwhole : ∀ k, host.chunk k = none)
    (hchain : Chain host n s after t) (hplain : AllPlain t.fs after) (he : e ∈ after)
    (hp : e.target = some p) : ¬ IsDir (s.fs.node p) := by
  obtain ⟨before, after', u, -, hbefore, hplain, -, -⟩ :=
    hchain.split hwhole hplain (keeps_refl t.fs) he
  exact fun hdir => (hplain.replaced p hp).not_isDir (hbefore.isDir hdir)

/-- A directory that is no later item's is there when all later items are undone. -/
theorem there_of_undoes {d : Place} (hwhole : ∀ k, host.chunk k = none)
    (hchain : Chain host n s after t) (hplain : AllPlain t.fs after)
    (hundo : Undoes listed (Later t.fs after) t.fs s.fs v.fs) (hdir : IsDir (s.fs.node d))
    (hno : ∀ e' ∈ after, e'.directory t.fs ≠ some d) : v.fs.node d ≠ none := by
  rw [hundo.frame d]
  · exact ((hchain.keeps hwhole hplain (keeps_refl t.fs)).isDir hdir).ne_none
  · rintro ⟨e', he', htarget | hdirectory⟩
    · exact not_isDir_of_target hwhole hchain hplain he' htarget hdir
    · exact hno e' he' hdirectory

/-! ### The same names -/

/-- An item, its run and those of the later items; the later ones are undone. -/
structure Stage (host : Host) (n : ℕ) (listed : Place → Prop) (e : Start) (s : Machine)
    (after : List Start) (t v : Machine) : Prop where
  whole : ∀ k, host.chunk k = none
  head : (install (loaded e.item) false host n e.state).ending = .done () s
  tail : Chain host n s after t
  plain : AllPlain t.fs (e :: after)
  undoes : Undoes listed (Later t.fs after) t.fs s.fs v.fs
  cwd : v.cwd = e.state.cwd
  suffixes : SameSuffixes e.state v

theorem Stage.chain (h : Stage host n listed e s after t v) :
    Chain host n e.state (e :: after) t := .cons h.head h.tail

theorem Stage.later (h : Stage host n listed e s after t v) : Keeps s.fs t.fs :=
  h.tail.keeps h.whole h.plain.rest (keeps_refl t.fs)

theorem Stage.made (h : Stage host n listed e s after t v) : e.Made s :=
  made_of_done h.whole h.plain.first h.later h.head

theorem Stage.links (h : Stage host n listed e s after t v) : Links s.fs v.fs :=
  h.undoes.toLinks h.later

/-- No directory is gone that the way to something leaves. -/
theorem Stage.way (h : Stage host n listed e s after t v) {ds : List Place}
    (hds : ∀ d ∈ ds, ∀ e' ∈ after, e'.directory t.fs ≠ some d) :
    ∀ d ∈ ds, IsDir (s.fs.node d) → v.fs.node d ≠ none := fun d hd hdir =>
  there_of_undoes h.whole h.tail h.plain.rest h.undoes hdir (hds d hd)

/-- A library name is read as it was. -/
theorem Stage.word (h : Stage host n listed e s after t v) {name : CString}
    (hname : name ∈ librariesOf e.item) (hword : wordIn e.state.fs e.state.cwd name ≠ none) :
    wordIn v.fs v.cwd name = wordIn e.state.fs e.state.cwd name := by
  unfold wordIn at hword ⊢
  rcases hread : fileContent e.state.fs e.state.cwd name with _ | content
  · simp [hread] at hword
  obtain ⟨p, hp, hcontent⟩ := Option.bind_eq_some_iff.mp hread
  have hthere : contentOf (t.fs.node p) = some content :=
    h.chain.content h.whole h.plain (keeps_refl t.fs) hcontent (h.plain.first.library name hname p hp)
  have hnot : ¬ Later t.fs after p := by
    rintro ⟨e', he', htarget | hdirectory⟩
    · exact h.plain.first.library name hname p hp e' (List.mem_cons_of_mem _ he') htarget
    · obtain ⟨x, hx, hk⟩ := isDir_iff.mp (isDir_of_directory hdirectory)
      obtain ⟨kind, mode, uid, gid⟩ := x
      obtain rfl : kind = .directory := hk
      simp [hx, contentOf] at hthere
  have hnode : v.fs.node p = t.fs.node p := h.undoes.frame p hnot
  have hnone : v.fs.node p ≠ none := by
    intro hno
    simp [← hnode, hno, contentOf] at hthere
  have hfollow : s.fs.follow e.state.cwd name = some p := follow_of_keeps h.made.keeps hp
  have hleaves := h.plain.first.libraryWay name hname
  rw [leavesAll_of_keeps h.later hfollow] at hleaves
  have hv : v.fs.follow v.cwd name = some p := by
    rw [h.cwd]
    exact follow_of_persists h.links hnone (h.way hleaves) hfollow
  rw [fileContent, hv, Option.bind_some, hnode, hthere]

/-- The names are translated as they were. -/
theorem Stage.translated (h : Stage host n listed e s after t v) (hnames : e.names = some names) :
    installNames (wordIn v.fs v.cwd) v e.item = some names := by
  rw [← hnames]
  exact installNames_congr h.suffixes.execSuffix h.suffixes.dlibSuffix fun name hname =>
    h.word hname (word_of_installNames hnames hname)

theorem Stage.ready (h : Stage host n listed e s after t v) (hnames : e.names = some names) :
    Ready names := by
  obtain ⟨names', hnames', hinstalls⟩ := installs_of_done h.whole h.head
  obtain rfl : names' = names := Option.some.inj (hnames'.symm.trans hnames)
  have hop : names'.op = e.item.op := installNames_op hnames'
  have hlink := h.plain.first.link
  rw [Start.path, hnames, Option.elim_some] at hlink
  unfold Installs at hinstalls
  unfold Ready
  unfold IsLink at hlink
  rw [← hop] at hlink
  cases hcase : names'.op with
  | copy =>
    rw [hcase] at hinstalls
    exact hinstalls.1
  | copyExec =>
    rw [hcase] at hinstalls
    exact hinstalls.1
  | symlink =>
    rw [hcase] at hinstalls
    exact ⟨hinstalls.1, hinstalls.2.1, (hlink (.inl hcase)).1⟩
  | liblink =>
    rw [hcase] at hinstalls
    exact ⟨hinstalls.1, hinstalls.2.1, (hlink (.inr hcase)).1⟩
  | mkdir =>
    rw [hcase] at hinstalls
    exact hinstalls.1

/-! ### The same places -/

/-- The path name of a file leads to it. -/
theorem Stage.leads_target (h : Stage host n listed e s after t v) {p : Place}
    (hp : FileSys.entry e.state.fs e.state.cwd e.path = some p) : Leads v.fs v.cwd e.path p := by
  have hs : FileSys.entry s.fs e.state.cwd e.path = some p := entry_of_keeps h.made.keeps hp
  have hleaves := h.plain.first.way
  rw [leaves_of_keeps h.later hs] at hleaves
  rw [h.cwd]
  exact leads_of_persists h.links h.later h.undoes.keeps (h.way hleaves) hs

/-- The path name of a directory leads to it. -/
theorem Stage.leads_directory (h : Stage host n listed e s after t v) {d : Place}
    (hd : s.fs.follow e.state.cwd e.path = some d)
    (hentry : FileSys.entry t.fs e.state.cwd e.path = some d) : Leads v.fs v.cwd e.path d := by
  have hs : FileSys.entry s.fs e.state.cwd e.path = some d := entry_of_follow h.later hd hentry
  have hleaves := h.plain.first.way
  rw [leaves_of_keeps h.later hs] at hleaves
  rw [h.cwd]
  exact leads_of_persists h.links h.later h.undoes.keeps (h.way hleaves) hs

/-! ### One item more is undone -/

/-- What the removal of a file does. -/
theorem Stage.unput (h : Stage host n listed e s after t v) {p : Place}
    (hop : e.item.op ≠ .mkdir) (hnames : e.names = some names) (htarget : e.target = some p)
    (hp : FileSys.entry e.state.fs e.state.cwd e.path = some p) (hslash : ¬ Slashed e.path)
    (hputs : Puts p e.state.fs s.fs) (hremoved : Removed v names v') :
    Undoes listed (Later t.fs (e :: after)) t.fs e.state.fs v'.fs := by
  have hdir : ¬ IsDir (v.fs.node p) := fun hdir => by
    have hthere : IsDir (s.fs.node p) :=
      (h.later.isDir_iff hputs.there).mp (h.undoes.keeps.isDir hdir)
    exact hputs.notDir hthere
  have hfs : v'.fs = FileSys.afterUnlink v.fs v.cwd e.path := by
    have hop : names.op ≠ .mkdir := installNames_op hnames ▸ hop
    rw [hremoved.fs, Start.path, hnames, Option.elim_some]
    unfold FileSys.removed
    split
    · exact absurd ‹_› hop
    all_goals rfl
  obtain ⟨hother, hgone⟩ := node_afterUnlink (h.leads_target hp) hslash hdir
  rw [hfs]
  refine h.undoes.unput hputs (fun q hq => later_cons.mpr ?_) hgone hother
  rcases hq with rfl | hq
  · exact .inl (.inl htarget)
  · exact .inr hq

/-- What the removal of a directory does. -/
theorem Stage.unopen (h : Stage host n listed e s after t v) {d : Place}
    (hlisted : ∀ d, e.directory t.fs = some d → listed d)
    (horder : ∀ d, e.directory t.fs = some d → ∀ q, q <:+ d → q ≠ d → e.state.fs.node q = none →
      ∀ d', listed d' → ¬ d' <:+ q)
    (hop : e.item.op = .mkdir) (hnames : e.names = some names)
    (hpath : e.path = e.item.dir.getD []) (hd : s.fs.follow e.state.cwd e.path = some d)
    (hopens : Opens d e.state.fs s.fs) (hremoved : Removed v names v') :
    Undoes listed (Later t.fs (e :: after)) t.fs e.state.fs v'.fs := by
  have hfs : v'.fs = FileSys.afterRmdir v.fs v.cwd e.path := by
    have hop : names.op = .mkdir := (installNames_op hnames).trans hop
    rw [hremoved.fs, Start.path, hnames, Option.elim_some, FileSys.removed, hop]
  have hfollow : t.fs.follow e.state.cwd e.path = some d := follow_of_keeps h.later hd
  have hthere : s.fs.node d ≠ none := there_of_follow hd
  -- whatever directory the path name names, links not followed, is the one that was opened
  have honly : ∀ r, FileSys.entry v.fs v.cwd e.path = some r → IsDir (v.fs.node r) → r = d := by
    intro r hr hisDir
    have hr := follow_of_entry hisDir hr
    rw [h.cwd] at hr
    exact Option.some.inj ((follow_of_keeps h.undoes.keeps hr).symm.trans hfollow)
  rw [hfs]
  by_cases hdir : IsDir (t.fs.node d)
  · have hdirectory : e.directory t.fs = some d := by
      unfold Start.directory
      rw [hop, ← hpath, hfollow]
      exact Option.filter_eq_some_iff.mpr ⟨rfl, decide_eq_true hdir⟩
    obtain ⟨hother, hend⟩ := node_afterRmdir honly
    refine h.undoes.unopen hopens h.later ((h.later.isDir_iff hthere).mp hdir)
      (horder d hdirectory) (fun q hq => later_cons.mpr ?_) hother ?_
    · rcases hq with rfl | hq
      · exact .inl (.inr hdirectory)
      · exact .inr hq
    · by_cases hnew : e.state.fs.node d = none
      · refine .inl ?_
        by_cases hgone : v.fs.node d = none
        · exact hend.elim id fun hsame => hsame.trans hgone
        · obtain ⟨x, hx⟩ := Option.ne_none_iff_exists'.mp hgone
          have hleads := h.leads_directory hd (h.plain.first.itself d hdirectory hnew)
          refine afterRmdir_vacant (hleads.there hgone) ?_
            (h.undoes.vacant hopens (hlisted d hdirectory) hnew)
          rwa [hx, ← h.undoes.part d x hx]
      · exact hend.imp id fun hsame => ⟨hnew, hsame⟩
  · have hsame : FileSys.afterRmdir v.fs v.cwd e.path = v.fs := by
      refine afterRmdir_of_not_isDir fun r hr hisDir => hdir ?_
      obtain rfl := honly r hr hisDir
      exact h.undoes.keeps.isDir hisDir
    rw [hsame]
    refine h.undoes.unchanged hopens (fun q => hopens.nothing_made hthere ?_)
      fun q hq => later_cons.mpr (.inr hq)
    exact fun hisDir => hdir (h.later.isDir hisDir)

/-- **One item more is undone.** -/
theorem undoes_removed (h : Stage host n listed e s after t v)
    (hlisted : ∀ d, e.directory t.fs = some d → listed d)
    (horder : ∀ d, e.directory t.fs = some d → ∀ q, q <:+ d → q ≠ d → e.state.fs.node q = none →
      ∀ d', listed d' → ¬ d' <:+ q)
    (hnames : e.names = some names) (hremoved : Removed v names v') :
    Undoes listed (Later t.fs (e :: after)) t.fs e.state.fs v'.fs := by
  rcases h.made with ⟨hop, p, htarget, hp, hslash, hputs⟩ | ⟨hop, hpath, d, hd, hopens⟩
  · exact h.unput hop hnames htarget hp hslash hputs hremoved
  · exact h.unopen hlisted horder hop hnames hpath hd hopens hremoved

/-! ### The run of the deinstaller -/

/-- A directory that an item listed is there when the item is done. -/
theorem there_of_listed {q : Place} (hwhole : ∀ k, host.chunk k = none)
    (hchain : Chain host n s before u) (hplain : AllPlain fs before) (hfs : Keeps u.fs fs)
    (hq : q ∈ directoriesOf fs before) : u.fs.node q ≠ none := by
  obtain ⟨e, he, hdirectory⟩ := List.mem_filterMap.mp hq
  obtain ⟨x, y, s', -, -, -, hmade, hkeeps⟩ := hchain.split hwhole hplain hfs he
  unfold Start.directory at hdirectory
  split at hdirectory
  · rename_i hop
    rcases hmade with ⟨hno, -⟩ | ⟨-, hpath, d, hd, -⟩
    · exact absurd hop hno
    · obtain ⟨hfollow, -⟩ := Option.filter_eq_some_iff.mp hdirectory
      have hfollow' := follow_of_keeps (hkeeps.trans hfs) hd
      rw [hpath] at hfollow'
      obtain rfl := Option.some.inj (hfollow'.symm.trans hfollow)
      exact hkeeps.there (there_of_follow hd)
  · simp at hdirectory

/-- All items of a prefix of the table are undone. -/
theorem wp_undo {host' : Host} {n' : ℕ} (hwhole : ∀ k, host.chunk k = none) (hsound : host'.Sound)
    (hplain : AllPlain t.fs starts) (horder : ParentsFirst (directoriesOf t.fs starts))
    (before : List Start) : ∀ {after s' v h}, starts = before ++ after →
    Chain host n s before s' → Chain host n s' after t →
    Undoes (· ∈ directoriesOf t.fs starts) (Later t.fs after) t.fs s'.fs v.fs →
    v.cwd = s'.cwd → SameSuffixes s' v →
    wp host' n' id (eachItem (fun ins => deinstall ins false) (before.map Start.item).reverse)
      ⟨fun ok _ u => ok = true ∧
          Undoes (· ∈ directoriesOf t.fs starts) (Later t.fs starts) t.fs s.fs u.fs,
        fun _ _ _ => False, fun _ => False⟩ h v := by
  induction before using List.reverseRecOn with
  | nil =>
    rintro after s' v h rfl hbefore - hundo - -
    cases hbefore
    rw [List.map_nil, List.reverse_nil, eachItem, wp_pure]
    exact ⟨rfl, hundo⟩
  | append_singleton before e ih =>
    intro after s' v h hstarts hbefore hafter hundo hcwd hsuffixes
    rw [List.append_assoc, List.singleton_append] at hstarts
    obtain ⟨s₁, hfirst, hlast⟩ := chain_append.mp hbefore
    cases hlast with
    | @cons item _ _ _ _ head tail =>
      cases tail
      obtain ⟨hplain₁, hplain₂⟩ := allPlain_append (hstarts ▸ hplain)
      obtain ⟨hcwd', hsuffixes'⟩ := place_of_done head
      have hchain := Chain.cons head hafter
      have hstage : Stage host n (· ∈ directoriesOf t.fs starts) ⟨item, s₁⟩ s' after t v :=
        ⟨hwhole, head, hafter, hplain₂, hundo, hcwd.trans hcwd',
          trans_of SameSuffixes hsuffixes' hsuffixes⟩
      obtain ⟨names, hnames, -⟩ := installs_of_done hwhole head
      rw [List.map_append, List.reverse_append]
      simp only [List.map_cons, List.map_nil, List.reverse_singleton, List.singleton_append,
        eachItem, wp_bind]
      refine wp_mono (wp_processItem_removed hsound (hstage.translated hnames) (hstage.ready hnames)) ?_
        (fun _ _ _ => id) fun _ => id
      rintro ok h' v' ⟨rfl, hremoved⟩
      simp only [if_true]
      refine ih hstarts hfirst hchain ?_ (hremoved.cwd.trans hstage.cwd)
        (trans_of SameSuffixes hstage.suffixes hremoved.suffixes)
      have hdirectories : ∀ d, Start.directory ⟨item, s₁⟩ t.fs = some d → directoriesOf t.fs starts =
          directoriesOf t.fs before ++ d :: directoriesOf t.fs after := fun d hd => by
        rw [hstarts, directoriesOf_split hd]
      refine undoes_removed hstage (fun d hd => ?_) (fun d hd q hqd hne hno d' hd' hdq => ?_) hnames
        hremoved
      · rw [hdirectories d hd]
        exact List.mem_append_right _ List.mem_cons_self
      · have hlisted := horder _ d _ (hdirectories d hd) d' hd' q hdq hqd hne
        exact there_of_listed hwhole hfirst hplain₁
          (hchain.keeps hwhole hplain₂ (keeps_refl t.fs)) hlisted hno

/-! ### Both programs -/

/-- The run of the installer, if every item ends with OK. -/
def installerPost (host : Host) (n : ℕ) (s : Machine) (insthier : List (InstallItem CString)) :
    Post Failure Machine Event ℕ where
  done code h t := code = 0 → AllOk h → ∃ s' content, Loaded s s' ∧
    fileContent s.fs s.cwd "conf-sosuffix".toList = some content ∧ content ≠ [] ∧
    Suffixed s' content ∧ (startsOf h).map Start.item = insthier ∧ Chain host n s' (startsOf h) t
  raised _ _ _ := False
  stopped _ := True

theorem wp_installer {insthier : List (InstallItem CString)} (hwhole : ∀ k, host.chunk k = none) :
    wp host n id (installer insthier false) (installerPost host n s insthier) [] s := by
  refine wp_afterInit (fun l s' hinit hload hl => ?_) (fun l s' _ _ _ => ?_) fun _ _ => trivial
  · obtain ⟨content, hcontent, hne, hsuffixed⟩ :=
      wp_done (wp_installInit (h := []) hwhole "conf-sosuffix") hinit
    rw [wp_bind]
    refine wp_mono (wp_eachItem_chain insthier) ?_ (fun _ _ _ => id) fun _ => id
    rintro ok h' t ⟨l', rfl, hl'⟩
    have hstarts : startsOf ([] ++ l ++ l') = startsOf l' := by
      rw [List.nil_append, startsOf_append,
        startsOf_inner fun e he => inner_of_ofStream e (hl e he), List.nil_append]
    cases ok with
    | true =>
      simp only [if_true, wp_pure]
      intro _ hok
      obtain ⟨-, hitems, hchain⟩ := hl' fun e he => hok e (List.mem_append_right _ he)
      rw [hstarts]
      exact ⟨s', content, hload, hcontent, hne, hsuffixed, hitems, hchain⟩
    | false =>
      simp only [Bool.false_eq_true, if_false, wp_pure]
      exact fun hcode => absurd hcode (by decide)
  · exact fun hcode => absurd hcode (by decide)

/-- A file that is no target is read as it was. -/
theorem fileContent_of_chain {cwd : Place} {path content : CString}
    (hwhole : ∀ k, host.chunk k = none) (hchain : Chain host n s starts t)
    (hplain : AllPlain t.fs starts) (hread : fileContent s.fs cwd path = some content)
    (hno : ∀ e ∈ starts, ∀ p ∈ e.target, s.fs.node p = none) :
    fileContent t.fs cwd path = some content := by
  obtain ⟨p, hp, hcontent⟩ := Option.bind_eq_some_iff.mp hread
  have hkeeps := hchain.keeps hwhole hplain (keeps_refl t.fs)
  rw [fileContent, follow_of_keeps hkeeps hp, Option.bind_some]
  refine hchain.content hwhole hplain (keeps_refl t.fs) hcontent fun e he htarget => ?_
  rw [hno e he p htarget] at hcontent
  simp [contentOf] at hcontent

/-- The run of the deinstaller, when all is installed. -/
theorem wp_deinstaller {host' : Host} (n' : ℕ) {cwd : Place} {content : CString}
    (hwhole : ∀ k, host.chunk k = none) (hsound : host'.Sound) (hchain : Chain host n s starts t)
    (hplain : AllPlain t.fs starts) (horder : ParentsFirst (directoriesOf t.fs starts))
    (hne : starts ≠ []) (hcwd : s.cwd = cwd) (hsuffixed : Suffixed s content)
    (hread : fileContent t.fs cwd "conf-sosuffix".toList = some content) (hcontent : content ≠ []) :
    wp host' n' id (deinstaller (starts.map Start.item) false)
      ⟨fun code _ u => code = 0 ∧
          Undoes (· ∈ directoriesOf t.fs starts) (Later t.fs starts) t.fs s.fs u.fs,
        fun _ _ _ => False, fun _ => False⟩ [] (Machine.initial t.fs cwd) := by
  simp only [deinstaller, afterInit, statusOf, wp_bind, wp_attempt]
  refine wp_mono ((within_installInit _).wp_and (wp_installInit hsound.chunk _)) ?_ ?_ ?_
  · rintro _ h v ⟨⟨content', hread', -, hsuffixed'⟩, hload, -⟩
    obtain rfl := Option.some.inj (hread'.symm.trans hread)
    have hv : v.fs = t.fs := hload.fs
    have hnil : starts.map Start.item ≠ [] := by simpa using hne
    simp only [wp_pure, if_true, if_neg hnil, wp_bind]
    refine wp_mono (wp_undo hwhole hsound hplain horder starts (List.append_nil _).symm hchain
      (.nil t) ?_ ?_ ?_) ?_ (fun _ _ _ => id) fun _ => id
    · rw [hv]
      exact undoes_refl t.fs
    · exact hload.cwd.trans (hcwd.symm.trans hchain.place.1.symm)
    · exact (hsuffixed.kept hchain.place.2).same hsuffixed'
    · rintro ok h' u ⟨rfl, hundo⟩
      simp only [if_true, wp_pure]
      exact ⟨trivial, hundo⟩
  · rintro e h v ⟨hraised, -⟩
    exact absurd (hraised hsound content hread) hcontent
  · rintro h ⟨hstopped, -⟩
    exact hstopped.elim

/-- What is left when all is deinstalled. No target is there and no listed directory that is new;
what else is gone are listed directories that held nothing but listed directories. -/
structure Restored (starts : List Start) (fs₀ fs u : FileSys) : Prop where
  targets : ∀ e ∈ starts, ∀ p ∈ e.target, u.node p = none
  directories : ∀ d ∈ directoriesOf fs starts, fs₀.node d = none → u.node d = none
  others : ∀ p, fs₀.node p ≠ none → u.node p = none →
    ∀ q, p <:+ q → fs₀.node q ≠ none → q ∈ directoriesOf fs starts

/-- What the invariant says when it has come to the first item. -/
theorem restored_of_undoes {fs' : FileSys} (hwhole : ∀ k, host.chunk k = none)
    (hchain : Chain host n s starts t) (hplain : AllPlain t.fs starts)
    (hfresh : ∀ e ∈ starts, ∀ p ∈ e.target, s.fs.node p = none)
    (hundo : Undoes (· ∈ directoriesOf t.fs starts) (Later t.fs starts) t.fs s.fs fs') :
    Restored starts s.fs t.fs fs' := by
  refine ⟨fun e he p hp => hundo.file_gone ?_ (hfresh e he p hp),
    fun d hd hnew => hundo.listed_gone hd hnew, fun p _ hgone q hpq hq => ?_⟩
  · obtain ⟨before, after, s', -, -, -, hmade, hkeeps⟩ :=
      hchain.split hwhole hplain (keeps_refl t.fs) he
    rcases hmade with ⟨-, r, hr, -, -, hputs⟩ | ⟨hop, -⟩
    · obtain rfl := Option.some.inj (hr.symm.trans hp)
      exact fun hdir => hputs.notDir ((hkeeps.isDir_iff hputs.there).mp hdir)
    · obtain ⟨names, hnames, htarget⟩ := Option.bind_eq_some_iff.mp hp
      rw [placeOf, installNames_op hnames, hop] at htarget
      simp at htarget
  · have hkeeps := hchain.keeps hwhole hplain (keeps_refl t.fs)
    refine hundo.only_listed hkeeps (fun r hr => ?_) hgone hpq hq
    obtain ⟨e, he, htarget | hdirectory⟩ := hr
    · exact .inr (hfresh e he r htarget)
    · exact .inl (List.mem_filterMap.mpr ⟨e, he, hdirectory⟩)

/-- **Deinstalling undoes installing.** -/
theorem deinstaller_restores {insthier : List (InstallItem CString)} {fs₀ : FileSys} {cwd : Place}
    {host' : Host} (n' : ℕ) (hne : insthier ≠ []) (hwhole : ∀ k, host.chunk k = none)
    (hsound : host'.Sound)
    (hrun : (installer insthier false host n (Machine.initial fs₀ cwd)).ending = .done 0 t)
    (hok : AllOk (installer insthier false host n (Machine.initial fs₀ cwd)).log)
    (hstarts : startsOf (installer insthier false host n (Machine.initial fs₀ cwd)).log = starts)
    (hfresh : ∀ e ∈ starts, ∀ p ∈ e.target, fs₀.node p = none)
    (horder : ParentsFirst (directoriesOf t.fs starts)) (hplain : AllPlain t.fs starts) :
    ∃ u, (deinstaller insthier false host' n' (Machine.initial t.fs cwd)).ending = .done 0 u ∧
      Restored starts fs₀ t.fs u.fs := by
  subst hstarts
  have hforward := wp_done (wp_installer (n := n) (s := Machine.initial fs₀ cwd) hwhole) hrun
  rw [List.map_id, List.nil_append] at hforward
  obtain ⟨s, content, hload, hread, hcontent, hsuffixed, hitems, hchain⟩ := hforward rfl hok
  have hs : s.fs = fs₀ := hload.fs
  subst hs
  have hread' := fileContent_of_chain hwhole hchain hplain hread hfresh
  have hne' : startsOf (installer insthier false host n (Machine.initial s.fs cwd)).log ≠ [] := by
    intro hnil
    rw [hnil] at hitems
    exact hne hitems.symm
  have hbackward := wp_deinstaller n' hwhole hsound hchain hplain horder hne' hload.cwd
    hsuffixed hread' hcontent
  rw [hitems] at hbackward
  obtain ⟨code, u, hrun', rfl, hundo⟩ :=
    wp_returns hbackward (fun _ _ _ => id) fun _ => id
  exact ⟨u, hrun', restored_of_undoes hwhole hchain hplain hfresh hundo⟩

/-! ### Trials -/

/-- The files that a program leaves. -/
def filesAfter : Ending Failure Machine ℕ → FileSys
  | .done _ t => t.fs
  | _ => FileSys.bare

/-- A table and the files that it is installed in. -/
structure Trial where
  files : FileSys
  table : List (InstallItem CString)

namespace Trial

variable (x : Trial)

/-- The run of the installer. -/
def forward : Run Failure Machine Event ℕ :=
  installer x.table false Host.quiet 9 (Machine.initial x.files [])

def journal : List Start := startsOf x.forward.log

/-- The files when all is installed. -/
def installed : FileSys := filesAfter x.forward.ending

/-- The run of the deinstaller. -/
def backward : Run Failure Machine Event ℕ :=
  deinstaller x.table false Host.quiet 9 (Machine.initial x.installed [])

/-- Every item is installed, no target was there before, and parents are listed first. -/
def Fair : Prop :=
  x.table ≠ [] ∧ exitStatus x.forward.ending = some 0 ∧ AllOk x.forward.log ∧
  (∀ e ∈ x.journal, ∀ p ∈ e.target, x.files.node p = none) ∧
  ParentsFirst (directoriesOf x.installed x.journal)

instance : Decidable x.Fair := by unfold Fair; infer_instance

/-- No target and no new directory is left, and nothing is gone but listed directories that were
empty. -/
def Undone : Prop :=
  (∀ e ∈ x.journal, ∀ p ∈ e.target, (filesAfter x.backward.ending).node p = none) ∧
  (∀ d ∈ directoriesOf x.installed x.journal, x.files.node d = none →
    (filesAfter x.backward.ending).node d = none) ∧
  ∀ p, x.files.node p ≠ none → (filesAfter x.backward.ending).node p = none →
    p ∈ directoriesOf x.installed x.journal ∧ x.files.Vacant p

instance : Decidable x.Undone := by unfold Undone; infer_instance

end Trial

/-- An item with these names. -/
def itemOf (op : InstOp) (src dst dir : Option String) : InstallItem CString where
  op := op
  src := src.map String.toList
  dst := dst.map String.toList
  dir := dir.map String.toList
  owner := none
  group := none
  perm := 493

/-- A file system with the suffix of libraries, a directory `lib` and a file `a`. -/
def smallFiles : FileSys := suffixFiles.withFile nameA "text".toList 420 (by decide)

/-- With a directory `b`, and a directory `a` in it. -/
def nestedFiles : FileSys :=
  (smallFiles.put nameB [] ⟨.directory, 493, 0, 0⟩ (by decide) fun _ => rfl).put nameA [nameB]
    ⟨.directory, 493, 0, 0⟩ (by decide) fun _ => rfl

/-- The name `b.tmp`. -/
def nameTmp : Name := ⟨"b.tmp".toList, by decide, by decide, by decide, by decide⟩

/-- A table of plain path names, with all operations; a copy and a directory are listed twice. -/
def plainTrial : Trial where
  files := smallFiles
  table := [itemOf .mkdir none none "lib", itemOf .mkdir none none "lib/d",
    itemOf .mkdir none none "x/y", itemOf .copy "a" none "lib/d",
    itemOf .copyExec "a" "/bin/b" "x/y", itemOf .copy "a" none "lib/d",
    itemOf .symlink "../../a" "b" "lib/d", itemOf .liblink "liba.so.1" "liba" "lib",
    itemOf .mkdir none none "lib"]

theorem deinstaller_restores_plain : ∃ u, plainTrial.backward.ending = .done 0 u ∧
    Restored plainTrial.journal plainTrial.files plainTrial.installed u.fs := by
  have hfair : plainTrial.Fair := by decide +kernel
  have hplain : AllPlain plainTrial.installed plainTrial.journal := by decide +kernel
  obtain ⟨hne, hstatus, hok, hfresh, horder⟩ := hfair
  obtain ⟨t, hrun⟩ := exitStatus_eq_some.mp hstatus
  have ht : plainTrial.installed = t.fs := by
    rw [Trial.installed, hrun]
    rfl
  rw [ht] at horder hplain
  rw [Trial.backward, ht]
  exact deinstaller_restores 9 hne (fun _ => rfl) sound_quiet hrun hok rfl hfresh horder hplain

/-- Tables whose items are not undone. -/
def trials : List Trial := [
  -- a directory that was there held nothing but another one
  ⟨nestedFiles, [itemOf .mkdir none none "b", itemOf .mkdir none none "b/a"]⟩,
  -- the temporary file of a copy was there
  ⟨smallFiles.withFile nameTmp [] 420 (by decide), [itemOf .copy "a" "b" "."]⟩,
  -- a copy replaces the link through which another one went
  ⟨smallFiles, [itemOf .symlink "lib" "l" ".", itemOf .copy "a" none "l",
    itemOf .copy "a" "l" "."]⟩,
  -- the link is not in the directory of its item
  ⟨smallFiles, [itemOf .symlink "a" "/b" "lib"]⟩,
  -- a directory is made and left by `..`
  ⟨smallFiles, [itemOf .mkdir none none "d", itemOf .mkdir none none "d/c/../e"]⟩,
  -- the path name of a new directory does not end in its name
  ⟨smallFiles, [itemOf .mkdir none none "d/."]⟩,
  -- the way to a target leaves a directory that is gone
  ⟨smallFiles, [itemOf .mkdir none none "d/e", itemOf .copy "a" none "d/e/..",
    itemOf .mkdir none none "d/e"]⟩,
  -- the way to a library name leaves a directory that is gone
  ⟨smallFiles.withFile nameVlb "text".toList 420 (by decide), [itemOf .mkdir none none "d",
    itemOf .liblink "d/../m.vlb" "l" "lib", itemOf .mkdir none none "d"]⟩,
  -- the file of a library name is gone
  ⟨smallFiles, [itemOf .copy "a" "b" ".", itemOf .symlink "b" "m.vlb" ".",
    itemOf .liblink "m.vlb" "l" "lib", itemOf .copy "a" "b" "."]⟩]

theorem trials_not_undone : trials.Forall fun x => x.Fair ∧ ¬ x.Undone := by decide +kernel

end LuaAdaLoad.Install.RoundTrip
