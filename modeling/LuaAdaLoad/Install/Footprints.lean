import LuaAdaLoad.Control.Invariants
import LuaAdaLoad.Install.Conserved
import LuaAdaLoad.Install.Ledgers
import LuaAdaLoad.Install.RoundTrip
import LuaAdaLoad.System.Writes

/-!
# What the programs leave alone

For an item that was started, a program may change the places that its names lead to (`Touches`):
the destination of a copy and its temporary file, the place of a link, the directories along a path.
All else is left alone, also where calls fail (`touches_only`).

The temporary file is where its name leads to, perhaps through a link. While it is written only this
place changes, and no path name gets another meaning (`Written`, `Pours`); so the stream and the
changes of mode and owners work on the same file, and `rename` and `unlink` on the entries that the
names had before.
-/

namespace LuaAdaLoad.Install.Footprints

open LuaAdaLoad.Control.Actions LuaAdaLoad.Control.Weakest LuaAdaLoad.Control.Frames
open LuaAdaLoad.Control.Invariants LuaAdaLoad.System.Paths LuaAdaLoad.System.FileSystem
open LuaAdaLoad.System.Walks LuaAdaLoad.System.Writes LuaAdaLoad.Install.Posix
open LuaAdaLoad.Install.Translation LuaAdaLoad.Install.Operators LuaAdaLoad.Install.Calls
open LuaAdaLoad.Install.TranslatedNames LuaAdaLoad.Install.Effects LuaAdaLoad.Install.Agreement
open LuaAdaLoad.Install.Deeds LuaAdaLoad.Install.Installed
open LuaAdaLoad.Install.Conserved (Keeping keeping_restoreCwd keeping_installCheck)
open LuaAdaLoad.Install.Courses (Tool)
open LuaAdaLoad.Install.Journals (Start startsOf)
open LuaAdaLoad.Install.Ledgers (Entry Ledger ledger_of_main start_mem)
open LuaAdaLoad.Install.FileCopies (wp_opened wp_created)
open LuaAdaLoad.Install.StartingDirectory
  (Tidy tidy_install tidy_deinstall exitStatus exitStatus_eq_some)

/-! ### Streams that write to one place -/

section Streams

variable {α : Type} {I : Machine → Prop}

theorem stable_withStream {stream : Option ℕ} {x : ℕ → Stream → Proc α}
    (hx : ∀ k f host n t, stream = some k → t.streams k = some f → I t →
      Leaves (fun _ => True) I (x k f host n t).ending) : Stable I (withStream stream x) := by
  rcases stream with _ | k
  · exact within_abort
  intro host n t
  refine ⟨fun _ _ => trivial, ?_⟩
  rcases hk : t.streams k with _ | f
  · have hrun : withStream (some k) x host n t = ⟨[], .aborted⟩ := by simp [withStream, hk]
    rw [hrun]
    trivial
  · have hrun : withStream (some k) x host n t = x k f host n t := by simp [withStream, hk]
    rw [hrun]
    have hends : ∀ {e : Ending Failure Machine α}, (I t → Leaves (fun _ => True) I e) →
        Leaves (fun _ => True) (Preserves I t) e := by
      intro e he
      rcases e with ⟨a, u⟩ | ⟨e, u⟩ | _ | _
      · exact he
      · exact ⟨trivial, fun ht => (he ht).2⟩
      · trivial
      · trivial
    exact hends (hx k f host n t rfl hk)

variable {fs : FileSys} {cwd w : Place} {k : ℕ} {s t u : Machine} {tmp : CString}

/-- The stream, while it is open, writes to this place, and nothing else was written so far. -/
structure Pours (fs : FileSys) (cwd w : Place) (k : ℕ) (t : Machine) : Prop where
  cwd : t.cwd = cwd
  written : Written w fs t.fs
  place : ∀ f, t.streams k = some f → f.place = w

/-- A stream is moved or closed. -/
theorem Pours.stream {j : ℕ} {f : Stream} {o : Option Stream} (h : Pours fs cwd w k t)
    (hj : t.streams j = some f) (ho : ∀ g, o = some g → g.place = f.place) (hcwd : u.cwd = t.cwd)
    (hfs : Written w fs u.fs) (hu : u.streams = Function.update t.streams j o) :
    Pours fs cwd w k u := by
  refine ⟨hcwd.trans h.cwd, hfs, fun g hg => ?_⟩
  rw [hu] at hg
  rcases eq_or_ne k j with rfl | hne
  · rw [Function.update_self] at hg
    rw [ho g hg, h.place f hj]
  · rw [Function.update_of_ne hne] at hg
    exact h.place g hg

theorem Pours.afterCall (h : Pours fs cwd w k t) (e : Option Errno) :
    Pours fs cwd w k (t.afterCall e) := ⟨h.cwd, h.written, h.place⟩

theorem pours_query (f : Machine → Except Errno α) : Stable (Pours fs cwd w k) (query f) :=
  within_step fun host s hs => by
    rcases host.fault s.calls with _ | e
    · rcases f s with e | a
      · exact hs.afterCall _
      · exact hs.afterCall _
    · exact hs.afterCall _

theorem pours_fread (size : ℕ) (stream : Option ℕ) :
    Stable (Pours fs cwd w k) (fread size stream) :=
  stable_withStream fun j f host n t _ hj ht => by
    change Pours fs cwd w k (t.readFrom host size j f).2
    unfold Machine.readFrom
    split
    · exact ht.stream hj (by rintro g ⟨⟩; rfl) rfl ht.written rfl
    · exact ht.stream hj (by rintro g ⟨⟩; rfl) rfl ht.written rfl

theorem pours_feof (stream : Option ℕ) : Stable (Pours fs cwd w k) (feof stream) :=
  stable_withStream fun _ _ _ _ _ _ _ ht => ht

theorem pours_ferror (stream : Option ℕ) : Stable (Pours fs cwd w k) (ferror stream) :=
  stable_withStream fun _ _ _ _ _ _ _ ht => ht

theorem pours_fflush (stream : Option ℕ) : Stable (Pours fs cwd w k) (fflush stream) :=
  within_withStream fun _ _ => within_bind (pours_query _) fun _ => within_pure _

theorem pours_fclose (stream : Option ℕ) : Stable (Pours fs cwd w k) (fclose stream) := by
  have hclose : ∀ j, Stable (Pours fs cwd w k) (setStream j none) := fun j =>
    within_modify fun t ht => by
      refine ⟨ht.cwd, ht.written, fun f hf => ?_⟩
      change Function.update t.streams j none k = some f at hf
      rcases eq_or_ne k j with rfl | hne
      · exact absurd hf (by simp)
      · rw [Function.update_of_ne hne] at hf
        exact ht.place f hf
  exact within_withStream fun j _ => within_bind (within_note trivial) fun _ =>
    within_bind (hclose j) fun _ => within_bind (pours_query _) fun _ => within_pure _

/-- What is written goes to the place of the stream. -/
theorem pours_fwrite (bytes : CString) : Stable (Pours fs cwd w k) (fwrite bytes (some k)) :=
  stable_withStream fun j f host n t hstream hj ht => by
    obtain rfl := Option.some.inj hstream
    obtain rfl := ht.place f hj
    change Pours fs cwd f.place k (t.writeTo host bytes k f).2
    unfold Machine.writeTo
    split
    · exact ht.stream hj (by rintro g ⟨⟩; rfl) rfl
        (ht.written.adjust (withContent_directory _) (shape_withContent _)) rfl
    · exact ht.stream hj (by rintro g ⟨⟩; rfl) rfl ht.written rfl

theorem pours_unfinished : Stable I (unfinished : Proc α) := fun _ _ _ =>
  ⟨fun _ _ => trivial, trivial⟩

theorem pours_writeOut (i : ℕ) (buf : CString) :
    Stable (Pours fs cwd w k) (writeOut (some k) i buf) := by
  induction i generalizing buf with
  | zero => exact pours_unfinished
  | succ i ih =>
    refine within_ite (within_pure _) (within_bind (pours_fwrite _) fun _ => within_ite ?_ (ih _))
    refine within_bind (pours_feof _) fun _ => within_ite (within_pure _) ?_
    exact within_bind (pours_ferror _) fun _ => within_ite (within_pure _) (ih _)

theorem pours_copyLoop (inp : Option ℕ) (i : ℕ) :
    Stable (Pours fs cwd w k) (copyLoop inp (some k) i) := by
  induction i with
  | zero => exact pours_unfinished
  | succ i ih =>
    refine within_bind (pours_fread _ _) fun buf => within_bind (pours_feof _) fun _ =>
      within_ite (within_pure _) ?_
    refine within_bind (pours_ferror _) fun _ => within_ite (within_pure _) ?_
    exact within_bind (fun host n t => pours_writeOut n _ host n t) fun _ =>
      within_ite ih (within_pure _)

/-- A call that changes the written file at most. -/
theorem pours_change {f : Host → Machine → Except Errno FileSys}
    (hf : ∀ host t fs', Pours fs cwd w k t → f host t = .ok fs' → Written w fs fs') :
    Stable (Pours fs cwd w k) (change f) :=
  within_step fun host t ht => by
    rcases host.fault t.calls with _ | e
    · rcases hfs : f host t with e | fs'
      · exact ht.afterCall _
      · exact ⟨ht.cwd, hf host t fs' ht hfs, ht.place⟩
    · exact ht.afterCall _

/-- The name of the temporary file still leads to the written one. -/
theorem Pours.adjust {p : Place} {f : Node → Node}
    {hf : ∀ x, (f x).kind = .directory ↔ x.kind = .directory} (ht : Pours fs cwd w k t)
    (htmp : fs.walk true maxSymlinks (start cwd tmp) (components tmp) = some w)
    (hp : t.fs.follow t.cwd tmp = some p) (hshape : ∀ x, shape (f x).kind = shape x.kind) :
    Written w fs (t.fs.adjust p f hf) := by
  rw [ht.cwd] at hp
  obtain rfl := ht.written.follow htmp hp
  exact ht.written.adjust hf hshape

theorem pours_chmod (htmp : fs.walk true maxSymlinks (start cwd tmp) (components tmp) = some w)
    (mode : ℕ) : Stable (Pours fs cwd w k) (chmod tmp mode) :=
  pours_change fun host t fs' ht hfs => by
    unfold FileSys.chmod at hfs
    rcases hp : t.fs.follow t.cwd tmp with _ | p
    · simp [hp] at hfs
    · simp only [hp] at hfs
      obtain rfl := Except.ok.inj hfs
      exact ht.adjust htmp hp fun _ => rfl

theorem pours_chown (htmp : fs.walk true maxSymlinks (start cwd tmp) (components tmp) = some w)
    (uid gid : ℕ) : Stable (Pours fs cwd w k) (chown tmp uid gid) :=
  pours_change fun host t fs' ht hfs => by
    unfold FileSys.chown at hfs
    rcases hp : t.fs.follow t.cwd tmp with _ | p
    · simp [hp] at hfs
    · simp only [hp] at hfs
      obtain rfl := Except.ok.inj hfs
      exact ht.adjust htmp hp fun _ => rfl

end Streams

/-! ### Copies -/

section Copies

variable {fs : FileSys} {cwd w : Place} {k : ℕ} {s t u : Machine} {src dst tmp : CString}
variable {host : Host} {n : ℕ} {h : List Event} {α : Type}

/-- At the places of which `P` does not hold, everything is as it was. -/
def Untouched (P : Place → Prop) (fs : FileSys) (t : Machine) : Prop :=
  ∀ p, ¬ P p → t.fs.node p = fs.node p

/-- An action that ends leaves the other places alone. -/
def framePost (P : Place → Prop) (fs : FileSys) : Post Failure Machine Event Unit where
  done _ _ t := Untouched P fs t
  raised _ _ t := Untouched P fs t
  stopped _ := True

/-- The places that a copy to `dst` can change: that to which the name of the temporary file leads,
and those of this name and of `dst`. -/
def CopyPlace (s : Machine) (dst : CString) (p : Place) : Prop :=
  FileSys.entry s.fs s.cwd dst = some p ∨
    ∃ tmp ∈ snprintf maxPathLen (dst ++ ".tmp".toList),
      (s.fs.walk true maxSymlinks (start s.cwd tmp) (components tmp) = some p ∨
        FileSys.entry s.fs s.cwd tmp = some p)

instance (s : Machine) (dst : CString) (p : Place) : Decidable (CopyPlace s dst p) := by
  unfold CopyPlace; infer_instance

theorem Pours.untouched {P : Place → Prop} (ht : Pours fs cwd w k t) (hw : P w) :
    Untouched P fs t := fun p hp => ht.written.node p fun h => hp (h ▸ hw)

theorem wp_copyFailed_frame {P : Place → Prop} (ht : Pours fs cwd w k t) (hw : P w)
    (htmp : ∀ p, FileSys.entry fs cwd tmp = some p → P p) (fdSrc fdDst : Option ℕ)
    (message : String) :
    wp host n id (copyFailed fdSrc fdDst tmp message) (framePost P fs) h t := by
  have hfail : ∀ h' v, Untouched P fs v →
      wp host n id (fail .error message : Proc Unit) (framePost P fs) h' v := fun _ _ hv =>
    wp_fail.mpr hv
  simp only [copyFailed, wp_bind]
  refine wp_mono ((pours_fclose fdDst).wp ht) ?_ (fun _ _ _ hu => hu.untouched hw) fun _ => id
  intro _ _ t ht
  refine wp_mono ((pours_fclose fdSrc).wp ht) ?_ (fun _ _ _ hu => hu.untouched hw) fun _ => id
  intro _ h' u hu
  dsimp only
  rw [unlink]
  refine wp_change (fun e _ => ?_) fun fs' hfs => ?_
  · exact hfail h' _ ((Pours.afterCall hu _).untouched hw)
  · refine hfail h' _ fun p hp => ?_
    have hentry : FileSys.entry u.fs u.cwd tmp ≠ some p := by
      rw [hu.cwd, hu.written.entry]
      exact fun h => hp (htmp p h)
    exact (unlink_elsewhere hfs hentry).trans (hu.untouched hw p hp)

theorem wp_copyWritten_frame {P : Place → Prop} (ht : Pours fs cwd w k t)
    (hwalk : fs.walk true maxSymlinks (start cwd tmp) (components tmp) = some w) (hw : P w)
    (htmp : ∀ p, FileSys.entry fs cwd tmp = some p → P p)
    (hdst : ∀ p, FileSys.entry fs cwd dst = some p → P p) (fdSrc fdDst : Option ℕ)
    (uid gid mode : ℕ) :
    wp host n id (copyWritten fdSrc fdDst tmp dst uid gid mode) (framePost P fs) h t := by
  have hstep : ∀ {x : Proc Bool} {y : Proc Unit} {message : String} {t : Machine} {h : List Event},
      Stable (Pours fs cwd w k) x → Pours fs cwd w k t →
      (∀ {u h'}, Pours fs cwd w k u → wp host n id y (framePost P fs) h' u) →
      wp host n id (x >>= fun ok => if !ok then copyFailed fdSrc fdDst tmp message else y)
        (framePost P fs) h t := by
    intro x y message t h hx ht hy
    rw [wp_bind]
    refine wp_mono (hx.wp ht) ?_ (fun _ _ _ hu => hu.untouched hw) fun _ => id
    intro ok _ u hu
    cases ok with
    | false => simpa using wp_copyFailed_frame hu hw htmp fdSrc fdDst message
    | true => simpa using hy hu
  unfold copyWritten
  refine hstep (pours_fflush _) ht fun ht => hstep (pours_chmod hwalk _) ht fun ht => ?_
  refine hstep (pours_chown hwalk _ _) ht fun ht => hstep (pours_fclose _) ht fun ht => ?_
  refine hstep (pours_fclose _) ht fun {t} _ ht => ?_
  rw [wp_bind]
  refine wp_change (fun e _ => ?_) fun fs' hfs => ?_
  · simpa using wp_copyFailed_frame (ht.afterCall _) hw htmp fdSrc fdDst _
  · simp only [Bool.not_true, Bool.false_eq_true, if_false, wp_pure]
    intro p hp
    have hentry : ∀ {path}, (∀ p, FileSys.entry fs cwd path = some p → P p) →
        FileSys.entry t.fs t.cwd path ≠ some p := by
      intro path hpath
      rw [ht.cwd, ht.written.entry]
      exact fun h => hp (hpath p h)
    exact (rename_elsewhere hfs (hentry htmp) (hentry hdst)).trans (ht.untouched hw p hp)

/-- **A copy changes** nothing but the temporary file and its destination. -/
theorem wp_fileCopy_frame (src dst : CString) (uid gid mode : ℕ) :
    wp host n id (fileCopy src dst uid gid mode) (framePost (CopyPlace s dst) s.fs) h s := by
  unfold fileCopy
  rcases htmp : snprintf maxPathLen (dst ++ ".tmp".toList) with _ | tmp
  · simp only [wp_bind, wp_doing, wp_fail]
    exact fun _ _ => rfl
  have hentry : ∀ p, FileSys.entry s.fs s.cwd tmp = some p → CopyPlace s dst p := fun p hp =>
    .inr ⟨tmp, htmp, .inr hp⟩
  simp only [wp_bind, wp_doing]
  refine wp_opened (fun e => ?_) fun r hr => ?_
  · simp only [Option.isNone_none, if_true, wp_fail]
    exact fun _ _ => rfl
  simp only [Option.isNone_some, Bool.false_eq_true, if_false, wp_bind]
  refine wp_created (fun e => ?_) fun w fs hfs => ?_
  · simp only [Option.isNone_none, if_true]
    -- the destination is `NULL`
    simp only [copyFailed, wp_bind]
    exact trivial
  simp only [Option.isNone_some, Bool.false_eq_true, if_false, wp_bind, wp_bounded]
  obtain ⟨hwalk, hwritten⟩ := written_openWrite hfs
  have hw : CopyPlace s dst w := .inr ⟨tmp, htmp, .inl hwalk⟩
  set t := opening { (opening (s.afterCall none) r).afterCall none with fs := fs } w with ht
  have hpours : Pours s.fs s.cwd w (s.calls + 1 + 1) t := by
    refine ⟨rfl, hwritten, fun f hf => ?_⟩
    have hnew : t.streams (s.calls + 1 + 1) = some ⟨w, 0, false, false⟩ :=
      Function.update_self _ _ _
    rw [Option.some.inj (hf.symm.trans hnew)]
  refine wp_mono ((pours_copyLoop (some (s.calls + 1)) n).wp hpours) ?_
    (fun _ _ _ hu => hu.untouched hw) fun _ => id
  rintro (_ | message) h' u hu
  · exact wp_copyWritten_frame hu hwalk hw hentry (fun p hp => .inl hp) _ _ _ _ _
  · exact wp_copyFailed_frame hu hw hentry _ _ _

end Copies

/-! ### Operators -/

section Operators

variable {P P' : Place → Prop} {fs fs' : FileSys} {s t : Machine} {host : Host} {n : ℕ}
variable {h : List Event} {α : Type} {ins : InstallItem Ptr}

theorem untouched_refl (P : Place → Prop) (t : Machine) : Untouched P t.fs t := fun _ _ => rfl

theorem Untouched.mono (h : Untouched P fs t) (hP : ∀ p, P p → P' p) : Untouched P' fs t :=
  fun p hp => h p fun hp' => hp (hP p hp')

theorem wp_frame_mono {x : Proc Unit} (hx : wp host n id x (framePost P fs) h s)
    (hP : ∀ p, P p → P' p) : wp host n id x (framePost P' fs) h s :=
  wp_mono hx (fun _ _ _ ht => Untouched.mono ht hP) (fun _ _ _ ht => Untouched.mono ht hP)
    fun _ => id

theorem untouched_of_keeping {x : Proc α} (hx : Keeping Eq x) : Stable (Untouched P fs) x :=
  stable_of_within hx fun s t hst hs p hp => by rw [← show s.fs = t.fs from hst, hs p hp]

theorem wp_instCopy_frame : wp host n id (instCopy ins false) (framePost
    (fun p => ∃ dst, ins.dst = some dst ∧ CopyPlace s (dst.read s.statics) p) s.fs) h s := by
  simp only [instCopy, wp_bind]
  refine wp_uidgidLookup (fun ids => ?_) fun e => untouched_refl _ s
  refine wp_deref (fun _ => trivial) fun src _ => wp_deref (fun _ => trivial) fun dst hdst => ?_
  have hcopy : ∀ u : Machine, u.fs = s.fs → u.cwd = s.cwd →
      wp host n id (fileCopy (src.read s.statics) (dst.read s.statics) ids.1 ids.2 ins.perm)
        (framePost (fun p => ∃ dst, ins.dst = some dst ∧ CopyPlace s (dst.read s.statics) p) s.fs)
        h u := by
    intro u hfs hcwd
    rw [← hfs]
    refine wp_frame_mono (wp_fileCopy_frame _ _ _ _ _) fun p hp => ⟨dst, hdst, ?_⟩
    unfold CopyPlace at hp ⊢
    rwa [hfs, hcwd] at hp
  simp only [fileSize, wp_bind, wp_ask]
  refine wp_query (fun e _ => ?_) fun x _ => ?_
  · simp only [wp_pure]
    exact hcopy _ rfl rfl
  · simp only [wp_pure]
    exact hcopy _ rfl rfl

/-- The place of a link. -/
def LinkPlace (s : Machine) (dir dst : CString) (p : Place) : Prop :=
  ∃ d ∈ s.fs.follow s.cwd dir, FileSys.entry s.fs d dst = some p

instance (s : Machine) (dir dst : CString) (p : Place) : Decidable (LinkPlace s dir dst p) := by
  unfold LinkPlace; infer_instance

theorem wp_linked_frame (ht : Untouched P fs t) (linked : Bool) (cwd : CString) :
    wp host n id (restoreCwd cwd) ⟨fun _ => wp host n id (if !linked then
        fail .error "could not make symbolic link" else pure ()) (framePost P fs),
      (framePost P fs).raised, (framePost P fs).stopped⟩ h t := by
  refine wp_mono ((untouched_of_keeping (keeping_restoreCwd cwd)).wp ht) ?_ (fun _ _ _ => id)
    fun _ => id
  intro _ h' u hu
  cases linked with
  | false =>
    simp only [Bool.not_false, if_true, wp_fail]
    exact hu
  | true =>
    simp only [Bool.not_true, Bool.false_eq_true, if_false, wp_pure]
    exact hu

/-- **A link changes** nothing but its place. -/
theorem wp_instLink_frame : wp host n id (instLink ins false) (framePost (fun p => ∃ dir dst,
    ins.dir = some dir ∧ ins.dst = some dst ∧
      LinkPlace s (dir.read s.statics) (dst.read s.statics) p) s.fs) h s := by
  rw [instLink, wp_bind]
  refine wp_query (fun e _ => ?_) fun cwd _ => ?_
  · simp only [wp_fail]
    exact untouched_refl _ s
  simp only [wp_bind]
  refine wp_deref (fun _ => trivial) fun dir hdir => ?_
  refine wp_chdir (fun e _ => ?_) fun d hd => ?_
  · simp only [Bool.not_false, if_true, wp_fail]
    exact untouched_refl _ s
  simp only [Bool.not_true, Bool.false_eq_true, if_false, wp_bind]
  refine wp_deref (fun _ => trivial) fun src _ => wp_deref (fun _ => trivial) fun dst hdst => ?_
  simp only [wp_doing]
  refine wp_change (fun e _ => ?_) fun fs hfs => ?_
  · exact wp_linked_frame (fun _ _ => rfl) _ _
  · refine wp_linked_frame (fun p hp => ?_) _ _
    obtain ⟨-, q, hq, -, hput⟩ := symlink_ok hfs
    refine hput.other p ?_
    rintro rfl
    exact hp ⟨dir, dst, hdir, hdst, d, follow_of_directory hd, hq⟩

/-- The places that the making of a directory can change. -/
def DirPlace (s : Machine) (dir : CString) (p : Place) : Prop :=
  ∃ fs, MadeAlong s.fs fs (start s.cwd dir) (components dir) ∧
    (fs.node p ≠ none ∧ s.fs.node p = none ∨ fs.follow s.cwd dir = some p)

theorem wp_instMkdir_frame : wp host n id (instMkdir ins false) (framePost (fun p => ∃ dir,
    ins.dir = some dir ∧ DirPlace s (dir.read s.statics) p) s.fs) h s := by
  simp only [instMkdir, wp_bind]
  refine wp_uidgidLookup (fun ids => ?_) fun e => untouched_refl _ s
  refine wp_deref (fun _ => trivial) fun p hp => ?_
  set dir := p.read s.statics with hdir
  have hmade : ∀ {fs q}, MadeAlong s.fs fs (start s.cwd dir) (components dir) →
      (¬ ∃ p, ins.dir = some p ∧ DirPlace s (p.read s.statics) q) →
      fs.node q = s.fs.node q ∧ fs.follow s.cwd dir ≠ some q := by
    intro fs q hfs hq
    have hno : ¬ (fs.node q ≠ none ∧ s.fs.node q = none ∨ fs.follow s.cwd dir = some q) := fun h =>
      hq ⟨p, hp, fs, hfs, h⟩
    push Not at hno
    refine ⟨?_, hno.2⟩
    rcases hx : s.fs.node q with _ | x
    · by_contra hthere
      exact hno.1 hthere hx
    · exact hfs.keeps q x hx
  have hrest : ∀ {made : Bool} {h' : List Event} {u : Machine}, u.cwd = s.cwd →
      MadeAlong s.fs u.fs (start s.cwd dir) (components dir) →
      wp host n id (if !made then fail .error "could not create directory" else do
        let owned ← chown dir ids.1 ids.2
        if !owned then
          fail .error "could not set ownership on directory")
        (framePost (fun p => ∃ dir, ins.dir = some dir ∧ DirPlace s (dir.read s.statics) p) s.fs)
        h' u := by
    intro made h' u hcwd hfs
    cases made with
    | false =>
      simp only [Bool.not_false, if_true, wp_fail]
      exact fun q hq => (hmade hfs hq).1
    | true =>
      simp only [Bool.not_true, Bool.false_eq_true, if_false, wp_bind]
      refine wp_change (fun e _ => ?_) fun fs' hown => ?_
      · simp only [Bool.not_false, if_true, wp_fail]
        exact fun q hq => (hmade hfs hq).1
      · simp only [Bool.not_true, Bool.false_eq_true, if_false, wp_pure]
        intro q hq
        obtain ⟨hsame, hno⟩ := hmade hfs hq
        rw [hcwd] at hown
        obtain ⟨d, hd, hfs'⟩ := chown_ok hown
        have hne : q ≠ d := fun hqd => hno (hqd ▸ hd)
        exact (hfs' q).trans ((if_neg hne).trans hsame)
  simp only [Bool.not_false, if_true, installRmkdir, wp_bind, wp_doing]
  split_ifs with hlen
  · simp only [wp_bind, wp_modify, wp_pure]
    exact hrest rfl (madeAlong_refl _ _ _)
  · refine wp_mono (wp_rmkdirLoop_keeps (I := fun fs =>
      MadeAlong s.fs fs (start s.cwd dir) (components dir)) s.cwd _ ?_
        (madeAlong_refl _ _ _) rfl) ?_ (fun _ _ _ hf => absurd hf id) fun _ _ => trivial
    · intro b hb fs fs' mode uid gid hfs hmk
      obtain ⟨hstart, hcs⟩ := loopDirs_along hb s.cwd
      exact hfs.mkdir hstart hcs hmk
    · rintro made h' u ⟨hfs, hcwd⟩
      exact hrest hcwd hfs

/-- The places that the installer can change for an item of these names. -/
def installPlace (s : Machine) (names : InstallItem CString) (p : Place) : Prop :=
  match names.op with
  | .copy | .copyExec => CopyPlace s (names.dst.getD []) p
  | .symlink | .liblink => LinkPlace s (names.dir.getD []) (names.dst.getD []) p
  | .mkdir => DirPlace s (names.dir.getD []) p

theorem wp_installOper_frame (ins : InstallItem Ptr) :
    wp host n id ((installOpers ins.op).oper ins false)
      (framePost (installPlace s (reading s.statics ins)) s.fs) h s := by
  obtain ⟨op, src, dst, dir, owner, group, perm⟩ := ins
  cases op with
  | copy =>
    refine wp_frame_mono wp_instCopy_frame ?_
    rintro p ⟨q, rfl, hp⟩
    exact hp
  | copyExec =>
    refine wp_frame_mono wp_instCopy_frame ?_
    rintro p ⟨q, rfl, hp⟩
    exact hp
  | symlink =>
    refine wp_frame_mono wp_instLink_frame ?_
    rintro p ⟨q, r, rfl, rfl, hp⟩
    exact hp
  | liblink =>
    refine wp_frame_mono wp_instLink_frame ?_
    rintro p ⟨q, r, rfl, rfl, hp⟩
    exact hp
  | mkdir =>
    refine wp_frame_mono wp_instMkdir_frame ?_
    rintro p ⟨q, rfl, hp⟩
    exact hp

/-- The places that the deinstaller can change for an item of these names. -/
def deinstallPlace (s : Machine) (names : InstallItem CString) (p : Place) : Prop :=
  match names.op with
  | .symlink | .liblink => ∃ path ∈ snprintf maxPathLen (targetOf names),
      FileSys.entry s.fs s.cwd path = some p
  | _ => FileSys.entry s.fs s.cwd (targetOf names) = some p

theorem wp_removal_frame {d : Deed} {g : Host → Machine → Except Errno FileSys} {message : String}
    (hg : ∀ fs', g host s = .ok fs' → ∀ p, ¬ P p → fs'.node p = s.fs.node p) :
    wp host n id (do
      doing d
      let gone ← change g
      if !gone then
        fail .error message) (framePost P s.fs) h s := by
  simp only [wp_bind, wp_doing]
  refine wp_change (fun e _ => ?_) fun fs' hfs => ?_
  · simp only [Bool.not_false, if_true, wp_fail]
    exact untouched_refl _ s
  · simp only [Bool.not_true, Bool.false_eq_true, if_false, wp_pure]
    exact hg fs' hfs

theorem wp_deinstCopy_frame : wp host n id (deinstCopy ins false) (framePost (fun p => ∃ dst,
    ins.dst = some dst ∧ FileSys.entry s.fs s.cwd (dst.read s.statics) = some p) s.fs) h s := by
  simp only [deinstCopy, wp_bind]
  refine wp_deref (fun _ => trivial) fun dst hdst => ?_
  simp only [Bool.not_false, if_true]
  exact wp_removal_frame fun fs' hfs p hp => unlink_elsewhere hfs fun he => hp ⟨dst, hdst, he⟩

theorem wp_deinstLink_frame : wp host n id (deinstLink ins false) (framePost (fun p =>
    ∃ dir dst path, ins.dir = some dir ∧ ins.dst = some dst ∧
      snprintf maxPathLen (joined (dir.read s.statics) (dst.read s.statics)) = some path ∧
        FileSys.entry s.fs s.cwd path = some p) s.fs) h s := by
  simp only [deinstLink, wp_bind]
  refine wp_deref (fun _ => trivial) fun dir hdir => wp_deref (fun _ => trivial) fun dst hdst => ?_
  simp only [Bool.not_false, if_true]
  rcases hpath : snprintf maxPathLen (joined (dir.read s.statics) (dst.read s.statics))
    with _ | path
  · simp only [wp_fail]
    exact untouched_refl _ s
  · exact wp_removal_frame fun fs' hfs p hp =>
      unlink_elsewhere hfs fun he => hp ⟨dir, dst, path, hdir, hdst, hpath, he⟩

theorem wp_deinstMkdir_frame : wp host n id (deinstMkdir ins false) (framePost (fun p => ∃ dir,
    ins.dir = some dir ∧ FileSys.entry s.fs s.cwd (dir.read s.statics) = some p) s.fs) h s := by
  simp only [deinstMkdir, wp_bind]
  refine wp_deref (fun _ => trivial) fun dir hdir => ?_
  simp only [Bool.not_false, if_true]
  exact wp_removal_frame fun fs' hfs p hp => rmdir_elsewhere hfs fun he => hp ⟨dir, hdir, he⟩

theorem wp_deinstOper_frame (ins : InstallItem Ptr) :
    wp host n id ((deinstOpers ins.op).oper ins false)
      (framePost (deinstallPlace s (reading s.statics ins)) s.fs) h s := by
  obtain ⟨op, src, dst, dir, owner, group, perm⟩ := ins
  cases op with
  | copy =>
    refine wp_frame_mono wp_deinstCopy_frame ?_
    rintro p ⟨q, rfl, hp⟩
    exact hp
  | copyExec =>
    refine wp_frame_mono wp_deinstCopy_frame ?_
    rintro p ⟨q, rfl, hp⟩
    exact hp
  | symlink =>
    refine wp_frame_mono wp_deinstLink_frame ?_
    rintro p ⟨q, r, path, rfl, rfl, hpath, hp⟩
    exact ⟨path, hpath, hp⟩
  | liblink =>
    refine wp_frame_mono wp_deinstLink_frame ?_
    rintro p ⟨q, r, path, rfl, rfl, hpath, hp⟩
    exact ⟨path, hpath, hp⟩
  | mkdir =>
    refine wp_frame_mono wp_deinstMkdir_frame ?_
    rintro p ⟨q, rfl, hp⟩
    exact hp

end Operators

/-! ### Items -/

/-- What a program may change for an item that it starts: the places that its operator works on. The
checker and dry runs may change nothing. -/
def Touches : Tool → Start → Place → Prop
  | .installer false, e, p => ∃ names ∈ e.names, installPlace e.state names p
  | .deinstaller false, e, p => ∃ names ∈ e.names, deinstallPlace e.state names p
  | _, _, _ => False

section Items

variable {tool : Tool} {item : InstallItem CString} {s : Machine} {host : Host} {n : ℕ}
variable {h : List Event}

/-- A translator changes nothing; then the operator works on the names. -/
theorem wp_processed_frame {opers : InstOp → InstOper} {bufs : List Static}
    {place : Machine → InstallItem CString → Place → Prop}
    (hcalm : Calm Refused ((opers item.op).trans (loaded item)))
    (htrans : wp host n id ((opers item.op).trans (loaded item))
      (itemPost host s bufs (Start.mk item s).names) h s)
    (hplace : ∀ t names p, t.fs = s.fs → t.cwd = s.cwd → place t names p → place s names p)
    (hoper : ∀ ins h' t, wp host n id ((opers ins.op).oper ins false)
      (framePost (place t (reading t.statics ins)) t.fs) h' t) :
    wp host n id (processed opers (loaded item) false) (framePost
      (fun p => ∃ names, (Start.mk item s).names = some names ∧ place s names p) s.fs) h s := by
  rw [processed, wp_bind]
  refine wp_mono (hcalm.wp_and htrans) ?_ ?_ fun _ _ => trivial
  · rintro ins h' t ⟨⟨hkept, -, hnames⟩, -, -⟩
    rw [← hkept.fs]
    exact wp_frame_mono (hoper ins h' t) fun p hp =>
      ⟨_, hnames, hplace t _ p hkept.fs hkept.cwd hp⟩
  · rintro e h' t ⟨-, -, hstill, -⟩ p -
    rw [hstill.fs]

theorem installPlace_of_same {t : Machine} {names : InstallItem CString} {p : Place}
    (hfs : t.fs = s.fs) (hcwd : t.cwd = s.cwd) (hp : installPlace t names p) :
    installPlace s names p := by
  unfold installPlace CopyPlace LinkPlace DirPlace at hp ⊢
  rwa [hfs, hcwd] at hp

theorem deinstallPlace_of_same {t : Machine} {names : InstallItem CString} {p : Place}
    (hfs : t.fs = s.fs) (hcwd : t.cwd = s.cwd) (hp : deinstallPlace t names p) :
    deinstallPlace s names p := by
  unfold deinstallPlace at hp ⊢
  rwa [hfs, hcwd] at hp

theorem wp_dry_frame {x : Proc Unit} {P : Place → Prop} (hx : Tidy true x) :
    wp host n id x (framePost P s.fs) h s := by
  refine wp_mono (hx.place host n h s) ?_ ?_ fun _ => id
  · rintro _ h' t ⟨-, hfs⟩ p -
    rw [hfs rfl]
  · rintro e h' t ⟨-, hfs⟩ p -
    rw [hfs rfl]

/-- **The frame of an item.** -/
theorem wp_process_frame (hwhole : ∀ k, host.chunk k = none) :
    wp host n id (tool.process (loaded item)) (framePost (Touches tool ⟨item, s⟩) s.fs) h s := by
  cases tool with
  | installer dryrun =>
    cases dryrun with
    | true => exact wp_dry_frame (tidy_install _)
    | false =>
      obtain ⟨bufs, htrans⟩ := wp_installTrans (n := n) (h := h) (s := s) hwhole item
      exact wp_processed_frame (calm_installTrans item.op _) htrans
        (fun _ _ _ => installPlace_of_same) fun ins _ _ => wp_installOper_frame ins
  | deinstaller dryrun =>
    cases dryrun with
    | true => exact wp_dry_frame (tidy_deinstall _)
    | false =>
      obtain ⟨bufs, htrans⟩ := wp_installTrans (n := n) (h := h) (s := s) hwhole item
      have htrans_eq : (deinstOpers item.op).trans = (installOpers item.op).trans :=
        deinstTrans_eq item.op
      rw [← htrans_eq] at htrans
      exact wp_processed_frame (htrans_eq ▸ calm_installTrans item.op _) htrans
        (fun _ _ _ => deinstallPlace_of_same) fun ins _ _ => wp_deinstOper_frame ins
  | instchk =>
    exact (untouched_of_keeping (keeping_installCheck (loaded item))).wp (untouched_refl _ s)

/-! ### Whole runs -/

/-- A place that no item of a ledger touches holds what it held. -/
theorem untouched_of_ledger {entries : List Entry} {t : Machine} {p : Place}
    (hwhole : ∀ k, host.chunk k = none) (hledger : Ledger tool host n s entries t)
    (hp : ∀ x ∈ entries, ¬ Touches tool x.start p) : t.fs.node p = s.fs.node p := by
  induction hledger with
  | nil s => rfl
  | @cons x entries t head tail ih =>
    have hfirst : Untouched (Touches tool x.start) x.start.state.fs x.state :=
      head.of_wp (P := fun _ t => Untouched (Touches tool x.start) x.start.state.fs t)
        (wp_process_frame hwhole)
    rw [ih fun y hy => hp y (List.mem_cons_of_mem _ hy), hfirst p (hp x List.mem_cons_self)]

/-- **What the programs leave alone.** If no item was started for which the program may change a
place, then what is there is the same after the run, however the items ended. -/
theorem touches_only (tool : Tool) (insthier : List (InstallItem CString)) (host : Host) (n : ℕ)
    (s : Machine) (hwhole : ∀ k, host.chunk k = none) (code : ℕ) (t : Machine)
    (hrun : (tool.main insthier host n s).ending = .done code t) (p : Place)
    (hp : ∀ e ∈ startsOf (tool.main insthier host n s).log, ¬ Touches tool e p) :
    t.fs.node p = s.fs.node p := by
  obtain ⟨-, u, hload, hledger⟩ := ledger_of_main tool hrun
  rw [← hload.fs]
  exact untouched_of_ledger hwhole hledger fun x hx => hp x.start (start_mem hx)

end Items

/-- One call fails. -/
def failingHost (call : ℕ) : Host :=
  { Host.quiet with fault := fun k => if k = call then some (.other 5) else none }

/-- The temporary file of a copy gets no owners; the copy fails, and the link is made. -/
theorem touches_only_copy :
    let run := Programs.installer
      [RoundTrip.itemOf .copy "a" "b" "lib", RoundTrip.itemOf .symlink "a" "c" "lib"] false
      (failingHost 10) 9 (Machine.initial RoundTrip.smallFiles [])
    Verdict.statusesOf run.log = [.error, .ok] ∧
      ∃ t, run.ending = .done 0 t ∧ t.fs.node [nameA] = RoundTrip.smallFiles.node [nameA] := by
  intro run
  have hstatus : exitStatus run.ending = some 0 := by decide +kernel
  obtain ⟨t, hrun⟩ := exitStatus_eq_some.mp hstatus
  refine ⟨by decide +kernel, t, hrun, touches_only (.installer false) _ (failingHost 10) 9
    (Machine.initial RoundTrip.smallFiles []) (fun _ => rfl) 0 t hrun [nameA] ?_⟩
  have hstarts : ∀ e ∈ startsOf run.log, ∀ names ∈ e.names,
      names.op = .copy ∧ ¬ CopyPlace e.state (names.dst.getD []) [nameA] ∨
      names.op = .symlink ∧
        ¬ LinkPlace e.state (names.dir.getD []) (names.dst.getD []) [nameA] := by
    decide +kernel
  rintro e he ⟨names, hnames, hplace⟩
  unfold installPlace at hplace
  rcases hstarts e he names hnames with ⟨hop, hno⟩ | ⟨hop, hno⟩
  · rw [hop] at hplace
    exact hno hplace
  · rw [hop] at hplace
    exact hno hplace

end LuaAdaLoad.Install.Footprints
