import Mathlib.Tactic.MkIffOfInductiveProp
import LuaAdaLoad.Install.Installed

/-!
# Journals

The log of the installer tells which item was started in which state (`startsOf`). From its state on,
an item has names, and a target or a directory. If every item ended with OK, the states are linked by
the runs of `install` (`Chain`), and every file system keeps what the ones before it held.
-/

namespace LuaAdaLoad.Install.Journals

open LuaAdaLoad.Control.Actions LuaAdaLoad.Control.Weakest LuaAdaLoad.Control.Frames
open LuaAdaLoad.System.Paths LuaAdaLoad.System.FileSystem LuaAdaLoad.System.Walks
open LuaAdaLoad.System.Removals LuaAdaLoad.System.Undoing LuaAdaLoad.Install.Posix
open LuaAdaLoad.Install.Translation LuaAdaLoad.Install.Operators LuaAdaLoad.Install.Programs
open LuaAdaLoad.Install.Calls LuaAdaLoad.Install.TranslatedNames LuaAdaLoad.Install.Effects
open LuaAdaLoad.Install.Deeds LuaAdaLoad.Install.Agreement LuaAdaLoad.Install.Installed
open LuaAdaLoad.Install.StartingDirectory hiding wp_main

/-! ### Starts -/

/-- An item, and the state in which it was started. -/
structure Start where
  item : InstallItem CString
  state : Machine

/-- The items that were started, in their order. -/
def startsOf (h : List Event) : List Start := h.filterMap fun
  | .started item s => some ⟨item, s⟩
  | _ => none

/-- If an item ended, it ended with OK. -/
def EndsOk : Event → Prop
  | .finished _ status _ => status = .ok
  | _ => True

instance (e : Event) : Decidable (EndsOk e) := by unfold EndsOk; split <;> infer_instance

/-- Every item ended with OK. -/
def AllOk (h : List Event) : Prop := ∀ e ∈ h, EndsOk e

instance (h : List Event) : Decidable (AllOk h) := by unfold AllOk; infer_instance

/-- The names that the item gets. -/
def Start.names (e : Start) : Option (InstallItem CString) :=
  installNames (wordIn e.state.fs e.state.cwd) e.state e.item

/-- The place of the copy or link that an item of these names makes. -/
def placeOf (s : Machine) (names : InstallItem CString) : Option Place :=
  match names.op with
  | .copy | .copyExec => FileSys.entry s.fs s.cwd (names.dst.getD [])
  | .symlink | .liblink => (s.fs.follow s.cwd (names.dir.getD [])).bind fun dir =>
      FileSys.entry s.fs dir (names.dst.getD [])
  | .mkdir => none

/-- The place of the copy or link that is made. -/
def Start.target (e : Start) : Option Place := e.names.bind (placeOf e.state)

/-- The place of the listed directory, in the file system that all is installed in. -/
def Start.directory (e : Start) (fs : FileSys) : Option Place :=
  match e.item.op with
  | .mkdir => (fs.follow e.state.cwd (e.item.dir.getD [])).filter fun d => IsDir (fs.node d)
  | _ => none

/-- The path name by which the deinstaller takes away what was made. -/
def Start.path (e : Start) : CString := e.names.elim [] targetOf

/-- The places of the directories that are listed, in their order. -/
def directoriesOf (fs : FileSys) (starts : List Start) : List Place :=
  starts.filterMap fun e => e.directory fs

/-- The item is a copy. -/
def IsCopy (op : InstOp) : Prop := op = .copy ∨ op = .copyExec

instance (op : InstOp) : Decidable (IsCopy op) := by unfold IsCopy; infer_instance

/-- The item is a link. -/
def IsLink (op : InstOp) : Prop := op = .symlink ∨ op = .liblink

instance (op : InstOp) : Decidable (IsLink op) := by unfold IsLink; infer_instance

/-- The path name of an item is a plain one: it leads to what the item makes, now and when all later
items are deinstalled. `fs` is there when all is installed, and `after` are the later items.

* Nothing is in the place of the temporary file of a copy, and a copy replaces at most a regular
  file.
* `dir/dst` fits the buffer and leads to the link that is made.
* On the way to a directory, `..` leaves none that the item makes, and the last name of the path is
  that of the directory if it is new.
* No directory that a later item lists is left by `..`, on the way to what the item makes or to a
  library name.
* No library name is in a file that the item or a later one makes. -/
@[mk_iff]
structure Start.Plain (e : Start) (fs : FileSys) (after : List Start) : Prop where
  temporary : IsCopy e.item.op → TemporaryFree e.state e.path
  replaced : ∀ p ∈ e.target, Flat (e.state.fs.node p)
  link : IsLink e.item.op → e.path.length < maxPathLen ∧
    FileSys.entry e.state.fs e.state.cwd e.path = e.target
  upwards : e.item.op = .mkdir → ∀ d ∈ FileSys.leavesAll fs e.state.cwd e.path,
    e.state.fs.node d ≠ none
  itself : ∀ d ∈ e.directory fs, e.state.fs.node d = none →
    FileSys.entry fs e.state.cwd e.path = some d
  way : ∀ d ∈ FileSys.leaves fs e.state.cwd e.path, ∀ e' ∈ after, e'.directory fs ≠ some d
  libraryWay : ∀ name ∈ librariesOf e.item, ∀ d ∈ FileSys.leavesAll fs e.state.cwd name,
    ∀ e' ∈ after, e'.directory fs ≠ some d
  library : ∀ name ∈ librariesOf e.item, ∀ p ∈ e.state.fs.follow e.state.cwd name,
    ∀ e' ∈ e :: after, e'.target ≠ some p

instance (e : Start) (fs : FileSys) (after : List Start) : Decidable (e.Plain fs after) :=
  decidable_of_iff _ (Start.plain_iff e fs after).symm

theorem directoriesOf_split {fs : FileSys} {before after : List Start} {e : Start} {d : Place}
    (hd : e.directory fs = some d) : directoriesOf fs (before ++ e :: after) =
      directoriesOf fs before ++ d :: directoriesOf fs after := by
  simp [directoriesOf, List.filterMap_append, hd]

/-! ### Runs of the installer -/

variable {host : Host} {n : ℕ} {h : List Event} {s t u : Machine} {e : Start}
variable {starts before after : List Start}

/-- The items are installed one after the other, and each ends with OK. -/
inductive Chain (host : Host) (n : ℕ) : Machine → List Start → Machine → Prop
  | nil (s : Machine) : Chain host n s [] s
  | cons {item : InstallItem CString} {s t u : Machine} {starts : List Start}
    (head : (install (loaded item) false host n s).ending = .done () t)
    (tail : Chain host n t starts u) : Chain host n s (⟨item, s⟩ :: starts) u

theorem chain_append {starts' : List Start} :
    Chain host n s (starts ++ starts') u ↔
      ∃ t, Chain host n s starts t ∧ Chain host n t starts' u := by
  induction starts generalizing s with
  | nil =>
    refine ⟨fun h => ⟨s, .nil s, h⟩, ?_⟩
    rintro ⟨t, h, h'⟩
    cases h
    exact h'
  | cons e starts ih =>
    constructor
    · intro h
      cases h with
      | cons head tail =>
        obtain ⟨t, h, h'⟩ := ih.mp tail
        exact ⟨t, .cons head h, h'⟩
    · rintro ⟨t, h, h'⟩
      cases h with
      | cons head tail => exact .cons head (ih.mpr ⟨t, tail, h'⟩)

theorem startsOf_append (l l' : List Event) : startsOf (l ++ l') = startsOf l ++ startsOf l' :=
  List.filterMap_append

theorem startsOf_inner {l : List Event} (hl : ∀ e ∈ l, Inner e) : startsOf l = [] := by
  refine List.filterMap_eq_nil_iff.mpr fun e he => ?_
  cases e with
  | started item s => exact absurd (hl _ he) id
  | _ => rfl

/-- If every item ends with OK, the items were installed one after the other. -/
def chainPost (host : Host) (n : ℕ) (h : List Event) (s : Machine)
    (items : List (InstallItem CString)) : Post Failure Machine Event Bool where
  done ok h' t := ∃ l, h' = h ++ l ∧ (AllOk l → ok = true ∧ (startsOf l).map Start.item = items ∧
    Chain host n s (startsOf l) t)
  raised _ _ _ := False
  stopped _ := True

theorem startsOf_item {item : InstallItem CString} {status : Status} {l : List Event}
    (hl : ∀ e ∈ l, Inner e) :
    startsOf ([.started item s] ++ l ++ [.finished item status t]) = [⟨item, s⟩] := by
  rw [startsOf_append, startsOf_append, startsOf_inner hl]
  rfl

theorem wp_eachItem_chain (items : List (InstallItem CString)) :
    wp host n id (eachItem (fun ins => install ins false) items) (chainPost host n h s items) h s := by
  refine wp_eachItem (I := fun pre h' t => ∃ l, h' = h ++ l ∧ (AllOk l →
    (startsOf l).map Start.item = pre ∧ Chain host n s (startsOf l) t))
    ⟨[], by simp, fun _ => ⟨rfl, .nil s⟩⟩ ?_ ?_
  · rintro _ t ⟨l, rfl, hl⟩
    exact ⟨l, rfl, fun hok => ⟨rfl, hl hok⟩⟩
  · rintro pre item post _ t rfl ⟨l, rfl, hl⟩
    refine wp_mono (wp_and_ending (within_install (loaded item)).wp) ?_ ?_ fun _ _ => trivial
    · rintro _ h' u ⟨⟨-, l', rfl, hl'⟩, hrun⟩
      simp only [endPost, reduceCtorEq, if_false]
      refine ⟨l ++ ([.started item t] ++ l' ++ [.finished item .ok u]), by simp, fun hok => ?_⟩
      obtain ⟨hitems, hchain⟩ := hl fun e he => hok e (List.mem_append_left _ he)
      rw [startsOf_append, startsOf_item hl', List.map_append, hitems]
      exact ⟨rfl, chain_append.mpr ⟨t, hchain, .cons hrun (.nil u)⟩⟩
    · rintro e h' u ⟨⟨hrefused, -, l', rfl, hl'⟩, -⟩
      have hno : ¬ AllOk (l ++ ([.started item t] ++ l' ++ [.finished item e.status u])) :=
        fun hok => hrefused (hok (.finished item e.status u) (by simp))
      simp only [endPost]
      split_ifs with hfatal
      · exact ⟨_, by simp, fun hok => absurd hok hno⟩
      · exact ⟨_, by simp, fun hok => absurd hok hno⟩

/-! ### What the items have made -/

theorem slashed_joined {dir path : CString} (hnil : path ≠ []) :
    Slashed (joined dir path) ↔ Slashed path := by
  obtain ⟨x, path, rfl⟩ := List.exists_cons_of_ne_nil hnil
  unfold Slashed joined
  rw [List.getLast?_append_cons, List.getLast?_cons_cons]

/-- A file was put at the target, or a directory was opened. -/
def Start.Made (e : Start) (t : Machine) : Prop :=
  (e.item.op ≠ .mkdir ∧ ∃ p, e.target = some p ∧
    FileSys.entry e.state.fs e.state.cwd e.path = some p ∧ ¬ Slashed e.path ∧
    Puts p e.state.fs t.fs) ∨
  (e.item.op = .mkdir ∧ e.path = e.item.dir.getD [] ∧
    ∃ d, t.fs.follow e.state.cwd e.path = some d ∧ Opens d e.state.fs t.fs)

theorem made_of_copies {dst : CString} {fs : FileSys} (hplain : e.Plain fs after)
    (hop : IsCopy e.item.op) (hpath : e.path = dst)
    (htarget : e.target = FileSys.entry e.state.fs e.state.cwd dst)
    (h : CopiesTo e.state dst t) : e.Made t := by
  subst hpath
  obtain ⟨hslash, p, hp, hputs⟩ := h (hplain.temporary hop)
  refine .inl ⟨?_, p, htarget.trans hp, hp, hslash, hputs (hplain.replaced p (htarget.trans hp))⟩
  rcases hop with hop | hop <;> rw [hop] <;> decide

theorem made_of_links {dir dst : CString} {fs : FileSys} (hplain : e.Plain fs after)
    (hop : IsLink e.item.op) (hpath : e.path = joined dir dst)
    (htarget : e.target = (e.state.fs.follow e.state.cwd dir).bind fun dir =>
      FileSys.entry e.state.fs dir dst)
    (h : LinksTo e.state dir dst t) : e.Made t := by
  obtain ⟨d, p, hd, hp, -, hslash, hputs⟩ := h
  have htarget : e.target = some p := by rw [htarget, hd, Option.bind_some, hp]
  have hnil : dst ≠ [] := by
    rintro rfl
    obtain ⟨ds, m, dir, hcs, -⟩ := entry_iff.mp hp
    simp at hcs
  refine .inl ⟨?_, p, htarget, (hplain.link hop).2.trans htarget, ?_, hputs⟩
  · rcases hop with hop | hop <;> rw [hop] <;> decide
  · rwa [hpath, slashed_joined hnil]

/-- **What an item has made** that ended with OK. -/
theorem made_of_installs {names : InstallItem CString} {fs : FileSys}
    (hnames : e.names = some names) (h : Installs e.state names t) (hplain : e.Plain fs after)
    (hfs : Keeps t.fs fs) : e.Made t := by
  have hop : names.op = e.item.op := installNames_op hnames
  have hpath : e.path = targetOf names := by rw [Start.path, hnames, Option.elim_some]
  have htarget : e.target = placeOf e.state names := by
    rw [Start.target, hnames, Option.bind_some]
  unfold Installs at h
  unfold targetOf at hpath
  unfold placeOf at htarget
  rw [hop] at h hpath htarget
  cases hcase : e.item.op with
  | copy =>
    rw [hcase] at h hpath htarget
    exact made_of_copies hplain (.inl hcase) hpath htarget h.2
  | copyExec =>
    rw [hcase] at h hpath htarget
    exact made_of_copies hplain (.inr hcase) hpath htarget h.2
  | symlink =>
    rw [hcase] at h hpath htarget
    exact made_of_links hplain (.inl hcase) hpath htarget h.2.2
  | liblink =>
    rw [hcase] at h hpath htarget
    exact made_of_links hplain (.inr hcase) hpath htarget h.2.2
  | mkdir =>
    rw [hcase] at h hpath
    obtain ⟨-, d, hd, hopens⟩ := h
    have hdir : names.dir = e.item.dir := by
      unfold Start.names installNames at hnames
      rw [hcase] at hnames
      obtain rfl := Option.some.inj hnames
      rfl
    have hpath : e.path = names.dir.getD [] := hpath
    rw [← hpath] at hd hopens
    refine .inr ⟨hcase, hdir ▸ hpath, d, hd, hopens fun q hq => hplain.upwards hcase q ?_⟩
    rwa [leavesAll_of_keeps hfs hd]

theorem Start.Made.keeps (h : e.Made t) : Keeps e.state.fs t.fs := by
  rcases h with ⟨-, p, -, -, -, hputs⟩ | ⟨-, -, d, -, hopens⟩
  · exact hputs.keeps
  · exact hopens.toKeeps

/-- A file that is no target keeps its contents. -/
theorem Start.Made.content (h : e.Made t) {p : Place} {content : CString}
    (hp : contentOf (e.state.fs.node p) = some content) (hno : e.target ≠ some p) :
    contentOf (t.fs.node p) = some content := by
  rcases h with ⟨-, q, hq, -, -, hputs⟩ | ⟨-, -, d, -, hopens⟩
  · rw [hputs.other p]
    · exact hp
    · rintro rfl
      exact hno hq
  · rcases hx : e.state.fs.node p with _ | x
    · simp [hx, contentOf] at hp
    · obtain ⟨⟨kind, mode, uid, gid⟩, hx', hk⟩ := hopens.keeps p x hx
      obtain ⟨kind', mode', uid', gid'⟩ := x
      obtain rfl : kind = kind' := hk
      rw [hx] at hp
      rw [hx', ← hp]
      cases kind <;> rfl

/-! ### What a chain of items has made -/

theorem Start.Plain.mono {fs : FileSys} {after' : List Start} (h : e.Plain fs after)
    (hsub : ∀ e' ∈ after', e' ∈ after) : e.Plain fs after' where
  temporary := h.temporary
  replaced := h.replaced
  link := h.link
  upwards := h.upwards
  itself := h.itself
  way d hd e' he' := h.way d hd e' (hsub e' he')
  libraryWay name hname d hd e' he' := h.libraryWay name hname d hd e' (hsub e' he')
  library name hname p hp e' he' := h.library name hname p hp e'
    ((List.mem_cons.mp he').elim (fun h => h ▸ List.mem_cons_self)
      fun he' => List.mem_cons_of_mem _ (hsub e' he'))

/-- Every item is a plain one, before those that follow it. -/
inductive AllPlain (fs : FileSys) : List Start → Prop
  | nil : AllPlain fs []
  | cons {e : Start} {after : List Start} (head : e.Plain fs after) (tail : AllPlain fs after) :
    AllPlain fs (e :: after)

theorem allPlain_cons {fs : FileSys} :
    AllPlain fs (e :: after) ↔ e.Plain fs after ∧ AllPlain fs after := by
  constructor
  · rintro ⟨⟩
    exact ⟨‹_›, ‹_›⟩
  · exact fun h => .cons h.1 h.2

instance (fs : FileSys) : (starts : List Start) → Decidable (AllPlain fs starts)
  | [] => isTrue .nil
  | _ :: after =>
    have := instDecidableAllPlain fs after
    decidable_of_iff _ allPlain_cons.symm

theorem AllPlain.first {fs : FileSys} (h : AllPlain fs (e :: after)) : e.Plain fs after :=
  (allPlain_cons.mp h).1

theorem AllPlain.rest {fs : FileSys} (h : AllPlain fs (e :: after)) : AllPlain fs after :=
  (allPlain_cons.mp h).2

theorem allPlain_append {fs : FileSys} (h : AllPlain fs (before ++ after)) :
    AllPlain fs before ∧ AllPlain fs after := by
  induction before with
  | nil => exact ⟨.nil, h⟩
  | cons e before ih =>
    obtain ⟨hbefore, hafter⟩ := ih h.rest
    exact ⟨.cons (h.first.mono fun e' he' => List.mem_append_left _ he') hbefore, hafter⟩

section Chains

variable {fs : FileSys}

/-- The item at the head of a chain. -/
theorem made_of_done {item : InstallItem CString} (hwhole : ∀ k, host.chunk k = none)
    (hplain : Start.Plain ⟨item, s⟩ fs after) (hfs : Keeps t.fs fs)
    (hrun : (install (loaded item) false host n s).ending = .done () t) :
    Start.Made ⟨item, s⟩ t := by
  obtain ⟨names, hnames, hinstalls⟩ := installs_of_done hwhole hrun
  exact made_of_installs hnames hinstalls hplain hfs

theorem Chain.keeps (h : Chain host n s starts u) (hwhole : ∀ k, host.chunk k = none)
    (hplain : AllPlain fs starts) (hfs : Keeps u.fs fs) : Keeps s.fs u.fs := by
  induction h with
  | nil s => exact keeps_refl s.fs
  | cons head tail ih =>
    have hkeeps := ih hplain.rest hfs
    exact (made_of_done hwhole hplain.first (hkeeps.trans hfs) head).keeps.trans hkeeps

theorem Chain.content (h : Chain host n s starts u) (hwhole : ∀ k, host.chunk k = none)
    (hplain : AllPlain fs starts) (hfs : Keeps u.fs fs) {p : Place} {content : CString}
    (hp : contentOf (s.fs.node p) = some content) (hno : ∀ e ∈ starts, e.target ≠ some p) :
    contentOf (u.fs.node p) = some content := by
  induction h with
  | nil s => exact hp
  | cons head tail ih =>
    refine ih hplain.rest hfs ?_ fun e he => hno e (List.mem_cons_of_mem _ he)
    have hkeeps := (tail.keeps hwhole hplain.rest hfs).trans hfs
    exact (made_of_done hwhole hplain.first hkeeps head).content hp (hno _ List.mem_cons_self)

/-- Directory and suffixes are the same when an item is done. -/
theorem place_of_done {item : InstallItem CString}
    (hrun : (install (loaded item) false host n s).ending = .done () t) :
    t.cwd = s.cwd ∧ SameSuffixes s t := by
  refine ⟨(wp_done ((tidy_install (loaded item)).place host n [] s) hrun).1, ?_⟩
  have hframe := (within_install (loaded item) host n s).2
  rw [hrun] at hframe
  exact hframe

theorem Chain.place (h : Chain host n s starts u) : u.cwd = s.cwd ∧ SameSuffixes s u := by
  induction h with
  | nil s => exact ⟨rfl, rfl, rfl⟩
  | cons head tail ih =>
    obtain ⟨hcwd, hsuffixes⟩ := place_of_done head
    exact ⟨ih.1.trans hcwd, trans_of SameSuffixes hsuffixes ih.2⟩

/-- A chain is split at each of its items. -/
theorem Chain.split (h : Chain host n s starts u) (hwhole : ∀ k, host.chunk k = none)
    (hplain : AllPlain fs starts) (hfs : Keeps u.fs fs) (he : e ∈ starts) :
    ∃ before after t, starts = before ++ e :: after ∧ Keeps s.fs e.state.fs ∧
      e.Plain fs after ∧ e.Made t ∧ Keeps t.fs u.fs := by
  obtain ⟨before, after, rfl⟩ := List.append_of_mem he
  obtain ⟨t, hbefore, hafter⟩ := chain_append.mp h
  obtain ⟨hplain₁, hplain₂⟩ := allPlain_append hplain
  have hkeeps := hbefore.keeps hwhole hplain₁ ((hafter.keeps hwhole hplain₂ hfs).trans hfs)
  cases hafter with
  | cons head tail =>
    have hkeeps' := tail.keeps hwhole hplain₂.rest hfs
    exact ⟨before, after, _, rfl, hkeeps, hplain₂.first,
      made_of_done hwhole hplain₂.first (hkeeps'.trans hfs) head, hkeeps'⟩

end Chains

end LuaAdaLoad.Install.Journals
