import LuaAdaLoad.Install.Effects
import LuaAdaLoad.Install.TranslatedNames

/-!
# One deed for one item

The log tells what a program did to which path. What is steady logs no deeds (it is `Mute`),
translators for example; every operator of the three tables logs one: the installer makes the target
(`Creates`), the checker looks at it (`Checks`), the deinstaller takes it away (`Removes`).
-/

namespace LuaAdaLoad.Install.Deeds

open LuaAdaLoad.Control.Actions LuaAdaLoad.Control.Weakest LuaAdaLoad.Control.Frames
open LuaAdaLoad.System.Paths LuaAdaLoad.System.FileSystem LuaAdaLoad.Install.Posix
open LuaAdaLoad.Install.Translation LuaAdaLoad.Install.Operators LuaAdaLoad.Install.Calls
open LuaAdaLoad.Install.TranslatedNames LuaAdaLoad.Install.Effects

/-! ### Actions without deeds -/

/-- The deeds in a log. -/
def deedsOf (h : List Event) : List (Deed × Machine) := h.filterMap fun
  | .deed d s => some (d, s)
  | _ => none

/-- An action that logs no deeds. -/
def Mute {α : Type} (x : Proc α) : Prop := ∀ host n s, deedsOf (x host n s).log = []

section Mute

variable {α β : Type} {x : Proc α} {f : α → Proc β}

@[simp] theorem deedsOf_append (h h' : List Event) :
    deedsOf (h ++ h') = deedsOf h ++ deedsOf h' := List.filterMap_append

theorem mute_bind (hx : Mute x) (hf : ∀ a, Mute (f a)) : Mute (x >>= f) := by
  intro host n s
  have hlog := hx host n s
  rw [bind_run]
  rcases hrun : x host n s with ⟨l, ⟨a, t⟩ | ⟨e, t⟩ | _ | _⟩ <;> rw [hrun] at hlog
  · rw [andThen_done, deedsOf_append, hlog, hf a host n t]
    rfl
  · exact hlog
  · exact hlog
  · exact hlog

theorem mute_ite {c : Prop} [Decidable c] {y : Proc α} (hx : Mute x) (hy : Mute y) :
    Mute (if c then x else y) := by
  split_ifs
  · exact hx
  · exact hy

theorem mute_pure (a : α) : Mute (pure a) := fun _ _ _ => rfl

theorem mute_modify (g : Machine → Machine) : Mute (modify g) := fun _ _ _ => rfl

theorem mute_step (g : Host → Machine → α × Machine) : Mute (step g) := fun _ _ _ => rfl

theorem mute_fail (status : Status) (message : String) : Mute (fail status message : Proc α) :=
  fun _ _ _ => rfl

theorem mute_query (g : Machine → Except Errno α) : Mute (query g) := mute_step _

theorem mute_change (g : Host → Machine → Except Errno FileSys) : Mute (change g) := mute_step _

theorem mute_chdir (path : CString) : Mute (chdir path) :=
  mute_bind (mute_query _) fun o => by
    rcases o with _ | p
    · exact mute_pure _
    · exact mute_bind (mute_modify _) fun _ => mute_pure _

/-- What is steady logs no deeds. -/
theorem steady_mute {X : Failure → Prop} (hx : Steady X x) : Mute x := fun host n s => by
  obtain ⟨hlog, -⟩ := hx host n s
  unfold deedsOf
  rw [List.filterMap_eq_nil_iff]
  intro e he
  cases e with
  | deed d t => exact absurd (hlog _ he) id
  | _ => rfl

theorem calm_mute {X : Failure → Prop} (hx : Calm X x) : Mute x := steady_mute (calm_steady hx)

variable {host : Host} {n : ℕ} {h : List Event} {s : Machine} {Q : Post Failure Machine Event α}

/-- The deeds in the history stay what they are while such an action runs. -/
theorem Mute.wp_and (hx : Mute x) (hQ : wp host n id x Q h s) : wp host n id x
    ⟨fun a h' t => Q.done a h' t ∧ deedsOf h' = deedsOf h,
      fun e h' t => Q.raised e h' t ∧ deedsOf h' = deedsOf h,
      fun h' => Q.stopped h' ∧ deedsOf h' = deedsOf h⟩ h s := by
  have hlog := hx host n s
  have hdeeds : deedsOf (h ++ (x host n s).log.map id) = deedsOf h := by simp [hlog]
  unfold wp at hQ ⊢
  rcases hend : (x host n s).ending with ⟨a, t⟩ | ⟨e, t⟩ | _ | _ <;> rw [hend] at hQ
  · exact ⟨hQ, hdeeds⟩
  · exact ⟨hQ, hdeeds⟩
  · exact ⟨hQ, hdeeds⟩
  · exact ⟨hQ, hdeeds⟩

end Mute

variable {host : Host} {n : ℕ} {h : List Event} {s : Machine}

/-! ### One deed for one item -/

/-- The path of an item's target, once its names are translated. -/
def targetOf (item : InstallItem CString) : CString :=
  match item.op with
  | .copy | .copyExec => item.dst.getD []
  | .mkdir => item.dir.getD []
  | .symlink | .liblink => joined (item.dir.getD []) (item.dst.getD [])

/-- How the installer makes a target. -/
def Creates (s : Machine) (item : InstallItem CString) (d : Deed) (t : Machine) : Prop :=
  t.fs = s.fs ∧
  match item.op with
  | .copy | .copyExec => d = .copy (targetOf item) ∧ t.cwd = s.cwd
  | .mkdir => d = .make (targetOf item) ∧ t.cwd = s.cwd
  | .symlink | .liblink => d = .link (item.dst.getD []) ∧
      s.directory (item.dir.getD []) = .ok t.cwd

/-- One deed is done, and nothing else; a failure may come before it. -/
def deedPost (h : List Event) (P : Deed → Machine → Prop) : Post Failure Machine Event Unit where
  done _ h' _ := ∃ d t, deedsOf h' = deedsOf h ++ [(d, t)] ∧ P d t
  raised _ h' _ := deedsOf h' = deedsOf h ∨ ∃ d t, deedsOf h' = deedsOf h ++ [(d, t)] ∧ P d t
  stopped h' := deedsOf h' = deedsOf h ∨ ∃ d t, deedsOf h' = deedsOf h ++ [(d, t)] ∧ P d t

/-- After the deed. -/
theorem wp_rest {rest : Proc Unit} {d : Deed} {t : Machine} {P : Deed → Machine → Prop}
    {h' : List Event} (hrest : Mute rest) (hh : deedsOf h' = deedsOf h ++ [(d, t)]) (hP : P d t) :
    wp host n id rest (deedPost h P) h' s := by
  have hstart : wp host n id rest ⟨fun _ _ _ => True, fun _ _ _ => True, fun _ => True⟩ h' s :=
    wp_of_history (fun _ _ _ => trivial) (fun _ _ _ => trivial) fun _ => trivial
  refine wp_mono (hrest.wp_and hstart) ?_ ?_ ?_
  · rintro _ h'' t' ⟨-, hsame⟩
    exact ⟨d, t, hsame.trans hh, hP⟩
  · rintro e h'' t' ⟨-, hsame⟩
    exact .inr ⟨d, t, hsame.trans hh, hP⟩
  · rintro h'' ⟨-, hsame⟩
    exact .inr ⟨d, t, hsame.trans hh, hP⟩

theorem wp_deed {rest : Proc Unit} {d : Deed} {P : Deed → Machine → Prop} (hrest : Mute rest)
    (hP : P d s) : wp host n id (doing d >>= fun _ => rest) (deedPost h P) h s := by
  simp only [wp_bind, wp_doing]
  exact wp_rest hrest (deedsOf_append _ _) hP

theorem wp_uidgidLookup {user group : Option CString}
    {Q : Post Failure Machine Event (ℕ × ℕ)} (hdone : ∀ ids, Q.done ids h s)
    (hfail : ∀ e, Q.raised e h s) : wp host n id (uidgidLookup user group) Q h s := by
  simp only [uidgidLookup, uidLookup, gidLookup, wp_bind, wp_ask, wp_pure]
  rcases user.elim (some host.uid) host.users with _ | uid
  · exact wp_fail.mpr (hfail _)
  · simp only [wp_bind, wp_ask, wp_pure]
    rcases group.elim (some host.gid) host.groups with _ | gid
    · exact wp_fail.mpr (hfail _)
    · exact (wp_pure _).mpr (hdone _)

theorem wp_fileCopy {P : Deed → Machine → Prop} {src dst : CString} {uid gid mode : ℕ}
    (hP : P (.copy dst) s) : wp host n id (fileCopy src dst uid gid mode) (deedPost h P) h s := by
  obtain ⟨rest, hcopy, hrest⟩ := fileCopy_eq src dst uid gid mode
  rw [hcopy]
  exact wp_deed (steady_mute hrest) hP

theorem mute_restoreCwd (cwd : CString) : Mute (restoreCwd cwd) :=
  mute_bind (mute_chdir _) fun _ => mute_ite (mute_fail _ _) (mute_pure _)

theorem wp_instCopy {ins : InstallItem Ptr} {P : Deed → Machine → Prop}
    (hP : ∀ p t, ins.dst = some p → Idle s t → P (.copy (p.read s.statics)) t) :
    wp host n id (instCopy ins false) (deedPost h P) h s := by
  simp only [instCopy, wp_bind]
  refine wp_uidgidLookup (fun ids => ?_) fun e => .inl rfl
  refine wp_deref (fun _ => .inl rfl) fun src _ => ?_
  refine wp_deref (fun _ => .inl rfl) fun dst hdst => ?_
  simp only [fileSize, wp_bind, wp_ask]
  refine wp_query (fun e _ => ?_) fun x _ => ?_
  · simp only [wp_pure]
    exact wp_fileCopy (hP dst _ hdst (idle_afterCall _ _))
  · simp only [wp_pure]
    exact wp_fileCopy (hP dst _ hdst (idle_afterCall _ _))

theorem wp_instLink {ins : InstallItem Ptr} {P : Deed → Machine → Prop}
    (hP : ∀ p q t, ins.dir = some p → ins.dst = some q → t.fs = s.fs →
      s.directory (p.read s.statics) = .ok t.cwd → P (.link (q.read s.statics)) t) :
    wp host n id (instLink ins false) (deedPost h P) h s := by
  rw [instLink, wp_bind]
  refine wp_query (fun e _ => ?_) fun cwd _ => ?_
  · simp only [wp_fail]
    exact .inl rfl
  simp only [wp_bind]
  refine wp_deref (fun _ => .inl rfl) fun dir hdir => ?_
  refine wp_chdir (fun e _ => ?_) fun p hp => ?_
  · simp only [Bool.not_false, if_true, wp_fail]
    exact .inl rfl
  simp only [Bool.not_true, Bool.false_eq_true, if_false, wp_bind]
  refine wp_deref (fun _ => .inl rfl) fun src _ => ?_
  refine wp_deref (fun _ => .inl rfl) fun dst hdst => ?_
  simp only [← wp_bind]
  refine wp_deed ?_ (hP dir dst _ hdir hdst rfl hp)
  refine mute_bind (mute_change _) fun linked => mute_bind (mute_restoreCwd cwd) fun _ => ?_
  exact mute_ite (mute_fail _ _) (mute_pure _)

theorem wp_instMkdir {ins : InstallItem Ptr} {P : Deed → Machine → Prop}
    (hP : ∀ p, ins.dir = some p → P (.make (p.read s.statics)) s) :
    wp host n id (instMkdir ins false) (deedPost h P) h s := by
  simp only [instMkdir, wp_bind]
  refine wp_uidgidLookup (fun ids => ?_) fun e => .inl rfl
  refine wp_deref (fun _ => .inl rfl) fun dir hdir => ?_
  simp only [Bool.not_false, if_true, installRmkdir, wp_bind, wp_doing]
  rw [← wp_bind]
  refine wp_rest (mute_bind (mute_ite ?_ (steady_mute (steady_rmkdirLoop _ _ _ _))) fun made => ?_)
    (deedsOf_append _ _) (hP dir hdir)
  · exact mute_bind (mute_modify _) fun _ => mute_pure _
  · refine mute_ite (mute_fail _ _) (mute_bind (mute_change _) fun owned => ?_)
    exact mute_ite (mute_fail _ _) (mute_pure _)

theorem wp_installOper (ins : InstallItem Ptr) :
    wp host n id ((installOpers ins.op).oper ins false)
      (deedPost h (Creates s (reading s.statics ins))) h s := by
  obtain ⟨op, src, dst, dir, owner, group, perm⟩ := ins
  cases op with
  | copy =>
    refine wp_instCopy fun p t hp ht => ⟨ht.fs, ?_⟩
    obtain rfl : dst = some p := hp
    exact ⟨rfl, ht.cwd⟩
  | copyExec =>
    refine wp_instCopy fun p t hp ht => ⟨ht.fs, ?_⟩
    obtain rfl : dst = some p := hp
    exact ⟨rfl, ht.cwd⟩
  | symlink =>
    refine wp_instLink fun p q t hp hq hfs ht => ⟨hfs, ?_⟩
    obtain rfl : dir = some p := hp
    obtain rfl : dst = some q := hq
    exact ⟨rfl, ht⟩
  | liblink =>
    refine wp_instLink fun p q t hp hq hfs ht => ⟨hfs, ?_⟩
    obtain rfl : dir = some p := hp
    obtain rfl : dst = some q := hq
    exact ⟨rfl, ht⟩
  | mkdir =>
    refine wp_instMkdir fun p hp => ⟨rfl, ?_⟩
    obtain rfl : dir = some p := hp
    exact ⟨rfl, rfl⟩

theorem wp_fileCheck {P : Deed → Machine → Prop} {src dst : CString} {mode uid gid : ℕ}
    {type : FileType} (hP : P (.check dst) s) :
    wp host n id (fileCheck src mode type uid gid dst) (deedPost h P) h s := by
  obtain ⟨rest, hcheck, hrest⟩ := fileCheck_eq src dst mode uid gid type
  rw [hcheck]
  exact wp_deed (calm_mute hrest) hP

theorem wp_countedCheck {ins : InstallItem Ptr} {src dst : Option Ptr} {type : FileType}
    {P : Deed → Machine → Prop} (hP : ∀ p, dst = some p → P (.check (p.read s.statics)) s) :
    wp host n id (countedCheck ins src dst type) (deedPost h P) h s := by
  simp only [countedCheck, wp_bind]
  refine wp_uidgidLookup (fun ids => ?_) fun e => .inl rfl
  refine wp_deref (fun _ => .inl rfl) fun src _ => ?_
  refine wp_deref (fun _ => .inl rfl) fun dst hdst => ?_
  simp only [wp_attempt]
  refine wp_mono (wp_fileCheck (hP dst hdst)) (fun _ _ _ hd => hd) (fun e h' t he => ?_)
    fun _ hs => hs
  simp only [wp_bind, wp_modify, wp_raise]
  exact he

/-- How the checker looks at a target. -/
def Checks (s : Machine) (item : InstallItem CString) (d : Deed) (t : Machine) : Prop :=
  t = s ∧ match item.op with
  | .mkdir => d = .check (item.dir.getD [])
  | _ => d = .check (item.dst.getD [])

theorem wp_instchkOper (ins : InstallItem Ptr) :
    wp host n id ((instchkOpers ins.op).oper ins false)
      (deedPost h (Checks s (reading s.statics ins))) h s := by
  obtain ⟨op, src, dst, dir, owner, group, perm⟩ := ins
  have hdst : ∀ p, dst = some p →
      p.read s.statics = (dst.map (Ptr.read s.statics)).getD [] := by
    rintro p rfl
    rfl
  cases op with
  | copy => exact wp_countedCheck fun p hp => ⟨rfl, congrArg _ (hdst p hp)⟩
  | copyExec => exact wp_countedCheck fun p hp => ⟨rfl, congrArg _ (hdst p hp)⟩
  | symlink => exact wp_countedCheck fun p hp => ⟨rfl, congrArg _ (hdst p hp)⟩
  | liblink => exact wp_countedCheck fun p hp => ⟨rfl, congrArg _ (hdst p hp)⟩
  | mkdir =>
    refine wp_countedCheck fun p hp => ⟨rfl, ?_⟩
    obtain rfl : dir = some p := hp
    rfl

/-- How the deinstaller takes a target away. -/
def Removes (s : Machine) (item : InstallItem CString) (d : Deed) (t : Machine) : Prop :=
  t = s ∧ match item.op with
  | .mkdir => d = .rmdir (targetOf item)
  | .copy | .copyExec => d = .unlink (targetOf item)
  | .symlink | .liblink =>
    ∃ path, snprintf maxPathLen (targetOf item) = some path ∧ d = .unlink path

theorem wp_deinstCopy {ins : InstallItem Ptr} {P : Deed → Machine → Prop}
    (hP : ∀ p, ins.dst = some p → P (.unlink (p.read s.statics)) s) :
    wp host n id (deinstCopy ins false) (deedPost h P) h s := by
  simp only [deinstCopy, wp_bind]
  refine wp_deref (fun _ => .inl rfl) fun dst hdst => ?_
  simp only [Bool.not_false, if_true]
  exact wp_deed (mute_bind (mute_change _) fun _ => mute_ite (mute_fail _ _) (mute_pure _))
    (hP dst hdst)

theorem wp_deinstLink {ins : InstallItem Ptr} {P : Deed → Machine → Prop}
    (hP : ∀ p q path, ins.dir = some p → ins.dst = some q →
      snprintf maxPathLen (joined (p.read s.statics) (q.read s.statics)) = some path →
      P (.unlink path) s) :
    wp host n id (deinstLink ins false) (deedPost h P) h s := by
  simp only [deinstLink, wp_bind]
  refine wp_deref (fun _ => .inl rfl) fun dir hdir => ?_
  refine wp_deref (fun _ => .inl rfl) fun dst hdst => ?_
  simp only [Bool.not_false, if_true]
  rcases hpath : snprintf maxPathLen (joined (dir.read s.statics) (dst.read s.statics))
    with _ | path
  · simp only [wp_fail]
    exact .inl rfl
  · exact wp_deed (mute_bind (mute_change _) fun _ => mute_ite (mute_fail _ _) (mute_pure _))
      (hP dir dst path hdir hdst hpath)

theorem wp_deinstMkdir {ins : InstallItem Ptr} {P : Deed → Machine → Prop}
    (hP : ∀ p, ins.dir = some p → P (.rmdir (p.read s.statics)) s) :
    wp host n id (deinstMkdir ins false) (deedPost h P) h s := by
  simp only [deinstMkdir, wp_bind]
  refine wp_deref (fun _ => .inl rfl) fun dir hdir => ?_
  simp only [Bool.not_false, if_true]
  exact wp_deed (mute_bind (mute_change _) fun _ => mute_ite (mute_fail _ _) (mute_pure _))
    (hP dir hdir)

theorem wp_deinstOper (ins : InstallItem Ptr) :
    wp host n id ((deinstOpers ins.op).oper ins false)
      (deedPost h (Removes s (reading s.statics ins))) h s := by
  obtain ⟨op, src, dst, dir, owner, group, perm⟩ := ins
  cases op with
  | copy =>
    refine wp_deinstCopy fun p hp => ⟨rfl, ?_⟩
    obtain rfl : dst = some p := hp
    rfl
  | copyExec =>
    refine wp_deinstCopy fun p hp => ⟨rfl, ?_⟩
    obtain rfl : dst = some p := hp
    rfl
  | symlink =>
    refine wp_deinstLink fun p q path hp hq hpath => ⟨rfl, path, ?_, rfl⟩
    obtain rfl : dir = some p := hp
    obtain rfl : dst = some q := hq
    exact hpath
  | liblink =>
    refine wp_deinstLink fun p q path hp hq hpath => ⟨rfl, path, ?_, rfl⟩
    obtain rfl : dir = some p := hp
    obtain rfl : dst = some q := hq
    exact hpath
  | mkdir =>
    refine wp_deinstMkdir fun p hp => ⟨rfl, ?_⟩
    obtain rfl : dir = some p := hp
    rfl

/-! ### One item -/

/-- A run does one thing, of which `P` holds, or fails before it. -/
def DoesOne (run : Run Failure Machine Event Unit) (P : Deed → Machine → Prop) : Prop :=
  (∃ d t, deedsOf run.log = [(d, t)] ∧ P d t) ∨
    deedsOf run.log = [] ∧ ∀ a t, run.ending ≠ .done a t

theorem doesOne_of_wp {x : Proc Unit} {P : Deed → Machine → Prop}
    (hx : wp host n id x (deedPost [] P) [] s) : DoesOne (x host n s) P := by
  unfold wp at hx
  rw [List.map_id, List.nil_append] at hx
  rcases hend : (x host n s).ending with ⟨a, t⟩ | ⟨e, t⟩ | _ | _ <;> rw [hend] at hx
  · exact .inl hx
  · exact hx.symm.imp_right fun hno => ⟨hno, by simp [hend]⟩
  · exact hx.symm.imp_right fun hno => ⟨hno, by simp [hend]⟩
  · exact hx.symm.imp_right fun hno => ⟨hno, by simp [hend]⟩

theorem DoesOne.mono {run : Run Failure Machine Event Unit} {P P' : Deed → Machine → Prop}
    (h : DoesOne run P) (hP : ∀ d u, P d u → P' d u) : DoesOne run P' :=
  h.imp_left fun ⟨d, u, hd, hdu⟩ => ⟨d, u, hd, hP d u hdu⟩

/-- An item is translated, and then its operator does one thing. -/
theorem wp_processed {opers : InstOp → InstOper} {item : InstallItem CString}
    {bufs : List Static} {names : Option (InstallItem CString)}
    {P : Machine → InstallItem CString → Deed → Machine → Prop}
    (hmute : Mute ((opers item.op).trans (loaded item)))
    (htrans : wp host n id ((opers item.op).trans (loaded item)) (itemPost host s bufs names) h s)
    (hoper : ∀ ins h' t, wp host n id ((opers ins.op).oper ins false)
      (deedPost h' (P t (reading t.statics ins))) h' t) :
    wp host n id (processed opers (loaded item) false)
      (deedPost h fun d u => ∃ t item', Kept s t ∧ names = some item' ∧ P t item' d u) h s := by
  rw [processed, wp_bind]
  refine wp_mono (hmute.wp_and htrans) ?_ (fun e h' t he => .inl he.2) fun h' hs => .inl hs.2
  rintro ins h' t ⟨⟨hkept, -, hnames⟩, hdeeds⟩
  refine wp_mono (hoper ins h' t) ?_ ?_ ?_
  · rintro _ h'' u ⟨d, v, hd, hP⟩
    exact ⟨d, v, hdeeds ▸ hd, t, _, hkept, hnames, hP⟩
  · rintro e h'' u (hno | ⟨d, v, hd, hP⟩)
    · exact .inl (hno.trans hdeeds)
    · exact .inr ⟨d, v, hdeeds ▸ hd, t, _, hkept, hnames, hP⟩
  · rintro h'' (hno | ⟨d, v, hd, hP⟩)
    · exact .inl (hno.trans hdeeds)
    · exact .inr ⟨d, v, hdeeds ▸ hd, t, _, hkept, hnames, hP⟩

end LuaAdaLoad.Install.Deeds
