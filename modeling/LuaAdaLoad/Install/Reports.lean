import LuaAdaLoad.Install.Footprints
import LuaAdaLoad.Install.Settled

/-!
# Whether the reports are true

A program reports a status for each item. The reports of the deinstaller and the installer are true
in the end, whichever calls fail. After a run of the deinstaller the places are empty that belong to
the items which ended with OK, and all others hold what they held before (`erases_exactly`). What an
item of the installer that ended with OK has made is there as long as no later item touches its
place (`installs_truly`).

* one call: `erased_unlink`, `erased_rmdir`;
* one item: `wp_deinstall_erases`, an item that does not end with OK has taken nothing away;
* the items one after the other: `Erased.trans`, since what is gone stays gone.
-/

namespace LuaAdaLoad.Install.Reports

open LuaAdaLoad.Control.Weakest LuaAdaLoad.System.Paths LuaAdaLoad.System.FileSystem
open LuaAdaLoad.System.Walks LuaAdaLoad.System.Removals LuaAdaLoad.Install.Posix
open LuaAdaLoad.Install.Translation LuaAdaLoad.Install.Operators LuaAdaLoad.Install.Programs
open LuaAdaLoad.Install.Calls LuaAdaLoad.Install.TranslatedNames LuaAdaLoad.Install.Effects
open LuaAdaLoad.Install.Agreement LuaAdaLoad.Install.Installed LuaAdaLoad.Install.Ledgers
open LuaAdaLoad.Install.Journals (Start)
open LuaAdaLoad.Install.Footprints
  (Touches deinstallPlace deinstallPlace_of_same failingHost untouched_of_ledger)
open LuaAdaLoad.Install.Settled (Does does_of_done)
open LuaAdaLoad.Install.StartingDirectory (exitStatus exitStatus_eq_some)

/-! ### Erasing places -/

section Places

variable {P P' : Place → Prop} {fs fs' fs'' : FileSys} {cwd p : Place} {path : CString}

/-- The places of which `P` holds are empty, and the others hold what they held. -/
structure Erased (P : Place → Prop) (fs fs' : FileSys) : Prop where
  gone : ∀ p, P p → fs'.node p = none
  kept : ∀ p, ¬ P p → fs'.node p = fs.node p

theorem erased_none (hP : ∀ p, ¬ P p) (fs : FileSys) : Erased P fs fs where
  gone p hp := absurd hp (hP p)
  kept _ _ := rfl

theorem Erased.congr (h : Erased P fs fs') (hP : ∀ p, P p ↔ P' p) : Erased P' fs fs' where
  gone p hp := h.gone p ((hP p).mpr hp)
  kept p hp := h.kept p (mt (hP p).mp hp)

/-- What is gone stays gone. -/
theorem Erased.trans (h : Erased P fs fs') (h' : Erased P' fs' fs'') :
    Erased (fun p => P p ∨ P' p) fs fs'' where
  gone p hp := by
    by_cases hp' : P' p
    · exact h'.gone p hp'
    · rw [h'.kept p hp']
      exact h.gone p (hp.resolve_right hp')
  kept p hp := by
    rw [not_or] at hp
    rw [h'.kept p hp.2, h.kept p hp.1]

theorem erased_one (hp : FileSys.entry fs cwd path = some p)
    (hfs : (∀ q, q ≠ p → fs'.node q = fs.node q) ∧ fs'.node p = none) :
    Erased (fun q => FileSys.entry fs cwd path = some q) fs fs' where
  gone q hq := by
    obtain rfl := Option.some.inj (hp.symm.trans hq)
    exact hfs.2
  kept q hq := hfs.1 q fun hqp => hq (hqp ▸ hp)

theorem erased_unlink (h : fs.unlink cwd path = .ok fs') :
    Erased (fun p => FileSys.entry fs cwd path = some p) fs fs' := by
  obtain ⟨p, hp, -⟩ := unlink_entry h
  exact erased_one hp (unlink_ok hp h)

theorem erased_rmdir (h : fs.rmdir cwd path = .ok fs') :
    Erased (fun p => FileSys.entry fs cwd path = some p) fs fs' := by
  obtain ⟨p, hp, -⟩ := rmdir_isDir h
  exact erased_one hp (rmdir_ok hp h)

end Places

/-! ### Items -/

section Items

variable {P P' : Place → Prop} {fs : FileSys} {s t : Machine} {host : Host} {n : ℕ}
variable {h : List Event} {ins : InstallItem Ptr} {item : InstallItem CString}

/-- If all goes well the places are empty afterwards, and otherwise nothing has changed. -/
def erasePost (P : Place → Prop) (fs : FileSys) : Post Failure Machine Event Unit where
  done _ _ t := Erased P fs t.fs
  raised e _ t := e.status ≠ .ok ∧ t.fs = fs
  stopped _ := True

theorem wp_erase_congr {x : Proc Unit} (hx : wp host n id x (erasePost P fs) h s)
    (hP : ∀ p, P p ↔ P' p) : wp host n id x (erasePost P' fs) h s :=
  wp_mono hx (fun _ _ _ ht => Erased.congr ht hP) (fun _ _ _ ht => ht) fun _ => id

theorem wp_erasing {d : Deed} {g : Host → Machine → Except Errno FileSys} {message : String}
    (hg : ∀ fs', g host s = .ok fs' → Erased P s.fs fs') :
    wp host n id (do
      doing d
      let gone ← change g
      if !gone then
        fail .error message) (erasePost P s.fs) h s := by
  simp only [wp_bind, wp_doing]
  refine wp_change (fun e _ => ?_) fun fs' hfs => ?_
  · simp only [Bool.not_false, if_true, wp_fail]
    exact ⟨by simp, rfl⟩
  · simp only [Bool.not_true, Bool.false_eq_true, if_false, wp_pure]
    exact hg fs' hfs

theorem wp_deinstCopy_erases : wp host n id (deinstCopy ins false) (erasePost (fun p =>
    FileSys.entry s.fs s.cwd ((ins.dst.map (Ptr.read s.statics)).getD []) = some p) s.fs) h s := by
  simp only [deinstCopy, wp_bind]
  refine wp_deref (fun _ => trivial) fun dst hdst => ?_
  simp only [hdst, Bool.not_false, if_true]
  exact wp_erasing fun fs' => erased_unlink

theorem wp_deinstLink_erases : wp host n id (deinstLink ins false) (erasePost (fun p =>
    ∃ path ∈ snprintf maxPathLen (joined ((ins.dir.map (Ptr.read s.statics)).getD [])
      ((ins.dst.map (Ptr.read s.statics)).getD [])),
      FileSys.entry s.fs s.cwd path = some p) s.fs) h s := by
  simp only [deinstLink, wp_bind]
  refine wp_deref (fun _ => trivial) fun dir hdir => wp_deref (fun _ => trivial) fun dst hdst => ?_
  simp only [hdir, hdst, Bool.not_false, if_true, Option.map_some, Option.getD_some]
  rcases snprintf maxPathLen (joined (dir.read s.statics) (dst.read s.statics)) with _ | path
  · simp only [wp_fail]
    exact ⟨by simp, rfl⟩
  · refine wp_erase_congr (wp_erasing fun fs' => erased_unlink) fun p => ?_
    simp

theorem wp_deinstMkdir_erases : wp host n id (deinstMkdir ins false) (erasePost (fun p =>
    FileSys.entry s.fs s.cwd ((ins.dir.map (Ptr.read s.statics)).getD []) = some p) s.fs) h s := by
  simp only [deinstMkdir, wp_bind]
  refine wp_deref (fun _ => trivial) fun dir hdir => ?_
  simp only [hdir, Bool.not_false, if_true]
  exact wp_erasing fun fs' => erased_rmdir

theorem wp_deinstOper_erases (ins : InstallItem Ptr) :
    wp host n id ((deinstOpers ins.op).oper ins false)
      (erasePost (deinstallPlace s (reading s.statics ins)) s.fs) h s := by
  obtain ⟨op, src, dst, dir, owner, group, perm⟩ := ins
  cases op with
  | copy => exact wp_deinstCopy_erases
  | copyExec => exact wp_deinstCopy_erases
  | symlink => exact wp_deinstLink_erases
  | liblink => exact wp_deinstLink_erases
  | mkdir => exact wp_deinstMkdir_erases

/-- The place that belongs to an item: the one that its target names where it is started. -/
def Owns (e : Start) (p : Place) : Prop := ∃ names ∈ e.names, deinstallPlace e.state names p

/-- **An item** that ends with OK empties its place; otherwise it takes nothing away. -/
theorem wp_deinstall_erases (hwhole : ∀ k, host.chunk k = none) :
    wp host n id (deinstall (loaded item) false) (erasePost (Owns ⟨item, s⟩) s.fs) h s := by
  obtain ⟨bufs, htrans⟩ := wp_installTrans (n := n) (h := h) (s := s) hwhole item
  have htrans_eq : (deinstOpers item.op).trans = (installOpers item.op).trans :=
    deinstTrans_eq item.op
  rw [← htrans_eq] at htrans
  have hcalm : Calm Refused ((deinstOpers item.op).trans (loaded item)) :=
    htrans_eq ▸ calm_installTrans item.op _
  rw [deinstall, processed, wp_bind]
  refine wp_mono (hcalm.wp_and htrans) ?_ ?_ fun _ _ => trivial
  · rintro ins h' t ⟨⟨hkept, -, hnames⟩, -, -⟩
    rw [← hkept.fs]
    refine wp_erase_congr (wp_deinstOper_erases ins) fun p => ⟨fun hp => ?_, ?_⟩
    · exact ⟨_, hnames, deinstallPlace_of_same hkept.fs hkept.cwd hp⟩
    · rintro ⟨names, hread, hp⟩
      obtain rfl := Option.some.inj (hnames.symm.trans hread)
      exact deinstallPlace_of_same hkept.fs.symm hkept.cwd.symm hp
  · rintro e h' t ⟨-, hrefused, hstill, -⟩
    exact ⟨hrefused, hstill.fs⟩

/-! ### The deinstaller's report -/

/-- An item that ended with OK owns the place. -/
def Emptied (entries : List Entry) (p : Place) : Prop :=
  ∃ x ∈ entries, x.status = .ok ∧ Owns x.start p

/-- An item empties its place if it ends with OK. -/
theorem erased_of_ended {x : Entry} (hwhole : ∀ k, host.chunk k = none)
    (hx : x.Ended (deinstall (loaded x.start.item) false host n x.start.state).ending) :
    Erased (fun p => x.status = .ok ∧ Owns x.start p) x.start.state.fs x.state.fs := by
  refine hx.of_wp (P := fun status t =>
    Erased (fun p => status = .ok ∧ Owns x.start p) x.start.state.fs t.fs) ?_
  refine wp_mono (wp_deinstall_erases hwhole) ?_ ?_ fun _ => id
  · intro _ _ t ht
    exact Erased.congr ht fun p => (and_iff_right rfl).symm
  · rintro e _ t ⟨hstatus, hfs⟩
    dsimp only
    rw [hfs]
    exact erased_none (fun p hp => hstatus hp.1) _

theorem erased_of_ledger {entries : List Entry} (hwhole : ∀ k, host.chunk k = none)
    (hledger : Ledger (.deinstaller false) host n s entries t) :
    Erased (Emptied entries) s.fs t.fs := by
  induction hledger with
  | nil s => exact erased_none (fun p ⟨_, hx, _⟩ => absurd hx List.not_mem_nil) _
  | @cons x entries t head tail ih =>
    refine ((erased_of_ended hwhole head).trans ih).congr fun p => ?_
    unfold Emptied
    rw [List.exists_mem_cons_iff]

/-- **The deinstaller's report is true.** Whichever calls fail, a real run that ends has emptied
the places of the items that ended with OK, and left all others alone. -/
theorem erases_exactly (insthier : List (InstallItem CString)) (host : Host) (n : ℕ) (s : Machine)
    (hwhole : ∀ k, host.chunk k = none) (code : ℕ) (t : Machine)
    (hrun : (deinstaller insthier false host n s).ending = .done code t) :
    Paired (deinstaller insthier false host n s).log ∧
      Erased (Emptied (entriesOf (deinstaller insthier false host n s).log)) s.fs t.fs := by
  obtain ⟨hpaired, u, hload, hledger⟩ := ledger_of_main (.deinstaller false) hrun
  rw [← hload.fs]
  exact ⟨hpaired, erased_of_ledger hwhole hledger⟩

/-- The directory `b/a` is taken away, and the call for `b` fails. -/
theorem erases_exactly_nested :
    let run := deinstaller
      [RoundTrip.itemOf .mkdir none none "b", RoundTrip.itemOf .mkdir none none "b/a"] false
      (failingHost 4) 9 (Machine.initial RoundTrip.nestedFiles [])
    (entriesOf run.log).map Entry.status = [.ok, .error] ∧ ∃ t, run.ending = .done 0 t ∧
      Paired run.log ∧ Erased (Emptied (entriesOf run.log)) RoundTrip.nestedFiles t.fs := by
  intro run
  have hstatus : exitStatus run.ending = some 0 := by decide +kernel
  obtain ⟨t, hrun⟩ := exitStatus_eq_some.mp hstatus
  exact ⟨by decide +kernel, t, hrun, erases_exactly _ (failingHost 4) 9
    (Machine.initial RoundTrip.nestedFiles []) (fun _ => rfl) 0 t hrun⟩

/-! ### The installer's report -/

/-- An item that ended with OK was installed. -/
theorem done_of_ended {x : Entry}
    (hx : x.Ended (install (loaded x.start.item) false host n x.start.state).ending)
    (hok : x.status = .ok) :
    (install (loaded x.start.item) false host n x.start.state).ending = .done () x.state := by
  obtain ⟨-, hend⟩ := within_install (loaded x.start.item) host n x.start.state
  rcases hrun : (install (loaded x.start.item) false host n x.start.state).ending
    with ⟨_, u⟩ | ⟨e, u⟩ | _ | _ <;> rw [hrun] at hx hend
  · rw [hx.2]
  · exact absurd (hx.1.symm.trans hok) hend.1
  · exact hx.elim
  · exact hx.elim

/-- **The installer's report is true.** Whichever calls fail, what an item of a real run has done that
ended with OK is still so at every place that no later item touches. -/
theorem installs_truly (insthier : List (InstallItem CString)) (host : Host) (n : ℕ) (s : Machine)
    (hwhole : ∀ k, host.chunk k = none) (code : ℕ) (t : Machine)
    (hrun : (installer insthier false host n s).ending = .done code t)
    (before after : List Entry) (x : Entry)
    (hlog : entriesOf (installer insthier false host n s).log = before ++ x :: after)
    (hok : x.status = .ok) : ∃ names, x.start.names = some names ∧
      Does host x.start.state names x.state ∧ ∀ p,
        (∀ y ∈ after, ¬ Touches (.installer false) y.start p) →
          t.fs.node p = x.state.fs.node p := by
  obtain ⟨-, u, -, hledger⟩ := ledger_of_main (.installer false) hrun
  obtain ⟨v, -, hrest⟩ := ledger_append.mp (hlog ▸ hledger)
  cases hrest with
  | cons head tail =>
    have hdone := done_of_ended head hok
    obtain ⟨names, hnames, -⟩ := installs_of_done hwhole hdone
    exact ⟨names, hnames, does_of_done hwhole hnames hdone, fun p hp =>
      untouched_of_ledger hwhole tail hp⟩

end Items

/-- The link is made, and stays though the copy after it fails. -/
theorem installs_truly_link :
    let run := installer
      [RoundTrip.itemOf .symlink "a" "c" "lib", RoundTrip.itemOf .copy "a" "b" "lib"] false
      (failingHost 13) 9 (Machine.initial RoundTrip.smallFiles [])
    (entriesOf run.log).map Entry.status = [.ok, .error] ∧ ∃ t x y, run.ending = .done 0 t ∧
      entriesOf run.log = [x, y] ∧ ∃ names, x.start.names = some names ∧
        Does (failingHost 13) x.start.state names x.state ∧ ∀ p,
          (∀ z ∈ [y], ¬ Touches (.installer false) z.start p) →
            t.fs.node p = x.state.fs.node p := by
  intro run
  have hstatus : exitStatus run.ending = some 0 := by decide +kernel
  have hstatuses : (entriesOf run.log).map Entry.status = [.ok, .error] := by decide +kernel
  obtain ⟨t, hrun⟩ := exitStatus_eq_some.mp hstatus
  obtain ⟨x, y, hlog⟩ : ∃ x y, entriesOf run.log = [x, y] := by
    rw [← List.length_eq_two, ← List.length_map (f := Entry.status), hstatuses]
    rfl
  have hok : x.status = .ok := by
    rw [hlog] at hstatuses
    exact (List.cons.inj hstatuses).1
  exact ⟨hstatuses, t, x, y, hrun, hlog, installs_truly _ (failingHost 13) 9
    (Machine.initial RoundTrip.smallFiles []) (fun _ => rfl) 0 t hrun [] [y] x hlog hok⟩

end LuaAdaLoad.Install.Reports
