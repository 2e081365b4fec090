import LuaAdaLoad.Install.StartingDirectory

/-!
# The verdict of the checker

The checker counts the items whose check failed in `install_failed`, and its exit status depends on
this number. But the number is incremented only after `install_file_check`: an item whose names do not
fit, and an item of an unknown user or group, ends with `INSTALL_STATUS_ERROR` and is not counted
(`Uncounted`). Without such an item the exit status is the verdict (`verdict_iff`).
-/

namespace LuaAdaLoad.Install.Verdict

open LuaAdaLoad.Control.Actions LuaAdaLoad.Control.Weakest LuaAdaLoad.Control.Frames
open LuaAdaLoad.System.Paths LuaAdaLoad.System.FileSystem LuaAdaLoad.Install.Posix
open LuaAdaLoad.Install.Translation LuaAdaLoad.Install.Operators LuaAdaLoad.Install.Programs
open LuaAdaLoad.Install.Calls LuaAdaLoad.Install.Effects LuaAdaLoad.Install.StartingDirectory

/-! ### The verdict -/

/-- The status with which a function ends. -/
def statusAt {α : Type} : Ending Failure Machine α → Option Status
  | .done _ _ => some .ok
  | .raised e _ => some e.status
  | .aborted => none
  | .unfinished => none

/-- The statuses with which items ended. -/
def statusesOf (h : List Event) : List Status := h.filterMap fun
  | .finished _ status _ => some status
  | _ => none

/-- The exit status is 0 just if every item of the table ended with OK, a fatal item makes it 112,
and the number reported is that of the items that ended with ERROR. -/
structure IsVerdict (insthier : List (InstallItem CString)) (code : ℕ) (log : List Event) : Prop where
  zero : code = 0 ↔ statusesOf log = insthier.map fun _ => Status.ok
  fatal : Status.fatal ∈ statusesOf log → code = 112
  failed : ∀ failed total, Event.reported failed total ∈ log →
    failed = (statusesOf log).count .error

/-- How the translation of the names of an item ends for the checker, in a state. -/
def translated (host : Host) (n : ℕ) (item : InstallItem CString) (u : Machine) : Option Status :=
  statusAt ((instchkOpers item.op).trans (loaded item) host n u).ending

/-- The user and the group of an item exist. -/
def Known {ρ : Type} (host : Host) (item : InstallItem ρ) : Prop :=
  (∀ user, item.owner = some user → host.users user ≠ none) ∧
    ∀ group, item.group = some group → host.groups group ≠ none

/-- An item that the checker gives up before it checks a file, with ERROR. -/
def Uncounted (host : Host) (n : ℕ) (item : InstallItem CString) (u : Machine) : Prop :=
  translated host n item u = some .error ∨
    translated host n item u = some .ok ∧ ¬ Known host item

/-! ### Translators keep users and groups -/

/-- Operation, user and group are the same. -/
structure Labelled (ins ins' : InstallItem Ptr) : Prop where
  op : ins'.op = ins.op
  owner : ins'.owner = ins.owner
  group : ins'.group = ins.group

theorem labelled_ntranCopy (ins : InstallItem Ptr) : Returns (Labelled ins) (ntranCopy ins) := by
  unfold ntranCopy
  rcases ins.src with _ | src
  · exact returns_raise _
  rcases ins.dir with _ | dir
  · exact returns_raise _
  refine returns_last fun p => returns_last fun q => returns_last fun o => ?_
  rcases o with _ | base
  · exact returns_raise _
  refine returns_last fun x => returns_last fun y => ?_
  rcases snprintf maxPathLen (joined x y) with _ | path
  · exact returns_raise _
  · exact returns_last fun _ => returns_pure ⟨rfl, rfl, rfl⟩

theorem labelled_ntranCopyExec (ins : InstallItem Ptr) :
    Returns (Labelled ins) (ntranCopyExec ins) := by
  refine returns_bind (labelled_ntranCopy ins) fun ins' hins' => returns_last fun s => ?_
  refine returns_last fun x => ?_
  rcases snprintf maxPathLen (x ++ s.execSuffix) with _ | src
  · exact returns_raise _
  refine returns_last fun _ => returns_last fun y => ?_
  rcases snprintf maxPathLen (y ++ s.execSuffix) with _ | dst
  · exact returns_raise _
  · exact returns_last fun _ => returns_pure ⟨hins'.op, hins'.owner, hins'.group⟩

theorem labelled_ntranLink (ins : InstallItem Ptr) : Returns (Labelled ins) (ntranLink ins) := by
  unfold ntranLink
  rcases ins.src with _ | src
  · exact returns_raise _
  rcases ins.dir with _ | dir
  · exact returns_raise _
  rcases ins.dst with _ | dst
  · exact returns_raise _
  · exact returns_pure ⟨rfl, rfl, rfl⟩

theorem labelled_ntranLiblink (ins : InstallItem Ptr) :
    Returns (Labelled ins) (ntranLiblink ins) := by
  unfold ntranLiblink
  rcases ins.src with _ | src
  · exact returns_raise _
  rcases ins.dir with _ | dir
  · exact returns_raise _
  rcases ins.dst with _ | dst
  · exact returns_raise _
  refine returns_last fun p => returns_last fun o => ?_
  rcases o with _ | base
  · exact returns_raise _
  refine returns_last fun x => returns_last fun s => ?_
  rcases snprintf maxPathLen (x ++ s.dlibSuffix) with _ | name
  · exact returns_raise _
  · exact returns_last fun _ => returns_pure ⟨rfl, rfl, rfl⟩

theorem labelled_ntranInDir {ins ins' : InstallItem Ptr} (buf : Static) (h : Labelled ins ins') :
    Returns (Labelled ins) (ntranInDir ins' buf) := by
  refine returns_last fun x => returns_last fun y => ?_
  rcases snprintf maxPathLen (joined x y) with _ | path
  · exact returns_raise _
  · exact returns_last fun _ => returns_pure ⟨h.op, h.owner, h.group⟩

theorem labelled_trans (op : InstOp) (ins : InstallItem Ptr) :
    Returns (Labelled ins) ((instchkOpers op).trans ins) := by
  cases op with
  | copy => exact labelled_ntranCopy ins
  | copyExec => exact labelled_ntranCopyExec ins
  | symlink => exact returns_bind (labelled_ntranLink ins) fun _ => labelled_ntranInDir _
  | mkdir => exact returns_pure ⟨rfl, rfl, rfl⟩
  | liblink => exact returns_bind (labelled_ntranLiblink ins) fun _ => labelled_ntranInDir _

/-! ### The check of an item -/

variable {host : Host} {n : ℕ} {h : List Event} {s t u : Machine} {l l' : List Event} {k k' : ℕ}

theorem Labelled.known {ins ins' : InstallItem Ptr} (h : Labelled ins ins') :
    Known host ins' ↔ Known host ins := by
  rw [Known, Known, h.owner, h.group]

theorem wp_uidgidLookup {ins : InstallItem Ptr} {Q : Post Failure Machine Event (ℕ × ℕ)}
    (hdone : Known host ins → ∀ ids, Q.done ids h s)
    (hfail : ¬ Known host ins → ∀ e, e.status = .error → Q.raised e h s) :
    wp host n id (uidgidLookup ins.owner ins.group) Q h s := by
  simp only [uidgidLookup, uidLookup, gidLookup, wp_bind, wp_ask, wp_pure]
  rcases huid : ins.owner.elim (some host.uid) host.users with _ | uid
  · refine wp_fail.mpr (hfail (fun hknown => ?_) _ rfl)
    rcases howner : ins.owner with _ | user <;> rw [howner] at huid
    · exact absurd huid (by simp)
    · exact hknown.1 user howner huid
  simp only [wp_bind, wp_ask, wp_pure]
  rcases hgid : ins.group.elim (some host.gid) host.groups with _ | gid
  · refine wp_fail.mpr (hfail (fun hknown => ?_) _ rfl)
    rcases hgroup : ins.group with _ | group <;> rw [hgroup] at hgid
    · exact absurd hgid (by simp)
    · exact hknown.2 group hgroup hgid
  refine (wp_pure _).mpr (hdone ⟨fun user howner hnone => ?_, fun group hgroup hnone => ?_⟩ _)
  · simp [howner, hnone] at huid
  · simp [hgroup, hnone] at hgid

theorem inner_fileCheck (src dst : CString) (mode uid gid : ℕ) (type : FileType) :
    Within Inner Erring Still (fileCheck src mode type uid gid dst) := by
  obtain ⟨rest, hcheck, hrest⟩ := fileCheck_eq src dst mode uid gid type
  rw [hcheck]
  refine within_bind (within_bind within_get fun _ => within_note trivial) fun _ => ?_
  exact hrest.mono inner_of_ofStream (fun _ => id) fun _ _ => id

theorem inner_countedCheck (ins : InstallItem Ptr) (src dst : Option Ptr) (type : FileType) :
    Within Inner AnyFailure Any (countedCheck ins src dst type) := by
  have hany : ∀ {α : Type} {x : Proc α}, Calm Erring x → Within Inner AnyFailure Any x := fun hx =>
    (calm_inner hx).mono (fun _ => id) (fun _ => id) fun _ _ _ => trivial
  refine within_bind (hany (calm_uidgidLookup _ _)) fun ids =>
    within_bind (hany (calm_deref _)) fun src => ?_
  refine within_bind (hany (calm_deref _)) fun dst => within_attempt (X := Erring) ?_ fun e _ => ?_
  · exact (inner_fileCheck _ _ _ _ _ _).mono (fun _ => id) (fun _ => id) fun _ _ _ => trivial
  · exact within_bind (within_modify fun _ => trivial) fun _ => within_raise trivial

/-- A file that is not as it should be is counted, an unknown user is not. -/
theorem wp_countedCheck (ins : InstallItem Ptr) (src dst : Option Ptr) (type : FileType) :
    wp host n id (countedCheck ins src dst type)
      ⟨fun _ _ t => Known host ins ∧ t.failed = s.failed,
        fun e _ t => e.status = .error ∧ (¬ Known host ins ∧ t.failed = s.failed ∨
          Known host ins ∧ t.failed = s.failed + 1), fun _ => True⟩ h s := by
  simp only [countedCheck, wp_bind]
  refine wp_uidgidLookup (fun hknown ids => ?_) fun hknown e he => ⟨he, .inl ⟨hknown, rfl⟩⟩
  refine wp_deref (fun _ => trivial) fun src _ => wp_deref (fun _ => trivial) fun dst _ => ?_
  simp only [wp_attempt]
  refine wp_mono (inner_fileCheck _ _ _ _ _ _).wp ?_ ?_ fun _ _ => trivial
  · rintro _ h' t ⟨hstill, -⟩
    exact ⟨hknown, hstill.failed⟩
  · rintro e h' t ⟨herror, hstill, -⟩
    simp only [wp_bind, wp_modify, wp_raise]
    exact ⟨herror, .inr ⟨hknown, congrArg (· + 1) hstill.failed⟩⟩

/-- The operators of the checker differ in the type of file that they want. -/
theorem instchkOper_eq (ins : InstallItem Ptr) :
    ∃ src dst type, (instchkOpers ins.op).oper ins false = countedCheck ins src dst type := by
  rcases ins.op
  · exact ⟨_, _, _, rfl⟩
  · exact ⟨_, _, _, rfl⟩
  · exact ⟨_, _, _, rfl⟩
  · exact ⟨_, _, _, rfl⟩
  · exact ⟨_, _, _, rfl⟩

theorem inner_installCheck (ins : InstallItem Ptr) :
    Within Inner AnyFailure Any (installCheck ins) := by
  refine within_bind ?_ fun ins' => ?_
  · exact (calm_inner (calm_instchkTrans ins.op ins)).mono (fun _ => id) (fun _ => id)
      fun _ _ _ => trivial
  · obtain ⟨src, dst, type, hoper⟩ := instchkOper_eq ins'
    rw [hoper]
    exact inner_countedCheck _ _ _ _

/-- How an item that ends with a status changes the number of failures: where it is `missed`, its
ERROR is not counted. -/
structure Outcome (host : Host) (n : ℕ) (item : InstallItem CString) (s : Machine)
    (status : Status) (t : Machine) : Prop where
  fatal : status = .fatal ↔ translated host n item s = some .fatal
  failed : ∃ missed, t.failed + missed = s.failed + [status].count .error ∧
    (missed = 0 ↔ ¬ Uncounted host n item s)

theorem wp_installCheck (item : InstallItem CString) : wp host n id (installCheck (loaded item))
    ⟨fun _ _ t => Outcome host n item s .ok t, fun e _ t => Outcome host n item s e.status t,
      fun _ => True⟩ h s := by
  have hlabels := labelled_trans item.op (loaded item) host n s
  rw [installCheck, processed, wp_bind]
  refine wp_mono (wp_and_ending (calm_instchkTrans item.op (loaded item)).wp) ?_ ?_ fun _ _ => trivial
  · rintro ins h' t ⟨⟨hstill, -⟩, hend⟩
    have hok : translated host n item s = some .ok := congrArg statusAt hend
    have hknown : Known host ins ↔ Known host item := (hlabels ins t hend).known
    obtain ⟨src, dst, type, hoper⟩ := instchkOper_eq ins
    simp only [hoper]
    refine wp_mono (wp_countedCheck ins src dst type) ?_ ?_ fun _ _ => trivial
    · rintro _ h'' u ⟨hk, hfailed⟩
      refine ⟨by simp [hok], 0, ?_, by simp [Uncounted, hok, hknown.mp hk]⟩
      simp [hfailed, hstill.failed]
    · rintro e h'' u ⟨herror, ⟨hk, hfailed⟩ | ⟨hk, hfailed⟩⟩
      · rw [hknown] at hk
        refine ⟨by simp [hok, herror], 1, ?_, by simp [Uncounted, hok, hk]⟩
        simp [herror, hfailed, hstill.failed]
      · refine ⟨by simp [hok, herror], 0, ?_, by simp [Uncounted, hok, hknown.mp hk]⟩
        simp [herror, hfailed, hstill.failed]
  · rintro e h' t ⟨⟨hno, hstill, -⟩, hend⟩
    have htrans : translated host n item s = some e.status := congrArg statusAt hend
    have hno : e.status ≠ .ok := hno
    rcases hstatus : e.status <;> rw [hstatus] at hno htrans
    · exact absurd rfl hno
    · exact ⟨by simp [htrans, hstatus], 1, by simp [hstill.failed, hstatus],
        by simp [Uncounted, htrans]⟩
    · exact ⟨by simp [htrans, hstatus], 0, by simp [hstill.failed, hstatus],
        by simp [Uncounted, htrans]⟩

/-! ### The table -/

/-- The translation of an item that was started is fatal. -/
def SomeFatal (host : Host) (n : ℕ) (h : List Event) : Prop :=
  ∃ item u, Event.started item u ∈ h ∧ translated host n item u = some .fatal

/-- An item that was started is not counted. -/
def SomeUncounted (host : Host) (n : ℕ) (h : List Event) : Prop :=
  ∃ item u, Event.started item u ∈ h ∧ Uncounted host n item u

/-- What the events tell of the number of failures, after `k` items. -/
structure Tally (host : Host) (n : ℕ) (s t : Machine) (l : List Event) (k : ℕ) : Prop where
  whole : Status.fatal ∉ statusesOf l → (statusesOf l).length = k
  fatal : Status.fatal ∈ statusesOf l ↔ SomeFatal host n l
  failed : ∃ missed, t.failed + missed = s.failed + (statusesOf l).count .error ∧
    (missed = 0 ↔ ¬ SomeUncounted host n l)
  silent : ∀ failed total, Event.reported failed total ∉ l

theorem statusesOf_append (l l' : List Event) :
    statusesOf (l ++ l') = statusesOf l ++ statusesOf l' := List.filterMap_append

theorem statusesOf_inner (hl : ∀ e ∈ l, Inner e) : statusesOf l = [] := by
  refine List.filterMap_eq_nil_iff.mpr fun e he => ?_
  cases e with
  | finished item status t => exact absurd (hl _ he) id
  | _ => rfl

theorem someFatal_append :
    SomeFatal host n (l ++ l') ↔ SomeFatal host n l ∨ SomeFatal host n l' := by
  simp only [SomeFatal, List.mem_append, or_and_right, exists_or]

theorem someUncounted_append :
    SomeUncounted host n (l ++ l') ↔ SomeUncounted host n l ∨ SomeUncounted host n l' := by
  simp only [SomeUncounted, List.mem_append, or_and_right, exists_or]

/-- Nothing was started. -/
theorem tally_inner (hl : ∀ e ∈ l, Inner e) (hfailed : t.failed = s.failed) :
    Tally host n s t l 0 := by
  have hno : ∀ item u, Event.started item u ∉ l := fun item u hmem => absurd (hl _ hmem) id
  refine ⟨fun _ => ?_, ?_, ⟨0, ?_, ?_⟩, fun failed total hmem => absurd (hl _ hmem) id⟩
  · rw [statusesOf_inner hl, List.length_nil]
  · simp [statusesOf_inner hl, SomeFatal, hno]
  · simp [statusesOf_inner hl, hfailed]
  · simp [SomeUncounted, hno]

theorem Tally.append (hl : Tally host n s t l k) (hl' : Tally host n t u l' k') :
    Tally host n s u (l ++ l') (k + k') where
  whole hno := by
    rw [statusesOf_append, List.mem_append, not_or] at hno
    rw [statusesOf_append, List.length_append, hl.whole hno.1, hl'.whole hno.2]
  fatal := by
    rw [statusesOf_append, List.mem_append, hl.fatal, hl'.fatal, someFatal_append]
  failed := by
    obtain ⟨missed, hfailed, hmissed⟩ := hl.failed
    obtain ⟨missed', hfailed', hmissed'⟩ := hl'.failed
    refine ⟨missed + missed', ?_, ?_⟩
    · rw [statusesOf_append, List.count_append]
      omega
    · rw [someUncounted_append, not_or, ← hmissed, ← hmissed']
      omega
  silent failed total := by
    rw [List.mem_append, not_or]
    exact ⟨hl.silent failed total, hl'.silent failed total⟩

/-- After a fatal item, the rest of the table is not missing. -/
theorem Tally.cut (hl : Tally host n s t l k) (hfatal : Status.fatal ∈ statusesOf l) :
    Tally host n s t l k' := { hl with whole := fun hno => absurd hfatal hno }

theorem statusesOf_item {item : InstallItem CString} {status : Status} (hl : ∀ e ∈ l, Inner e) :
    statusesOf ([.started item s] ++ l ++ [.finished item status t]) = [status] := by
  rw [statusesOf_append, statusesOf_append, statusesOf_inner hl]
  rfl

theorem tally_item {item : InstallItem CString} {status : Status}
    (hl : ∀ e ∈ l, Inner e) (hout : Outcome host n item s status t) :
    Tally host n s t ([.started item s] ++ l ++ [.finished item status t]) 1 := by
  have hstatuses : statusesOf ([.started item s] ++ l ++ [.finished item status t]) = [status] :=
    statusesOf_item hl
  have hstarted : ∀ {item' u}, Event.started item' u ∈
      [.started item s] ++ l ++ [.finished item status t] ↔ item' = item ∧ u = s := by
    intro item' u
    have hno : Event.started item' u ∉ l := fun hmem => absurd (hl _ hmem) id
    simp [hno]
  refine ⟨fun _ => by rw [hstatuses]; rfl, ?_, ?_, fun failed total hmem => ?_⟩
  · rw [hstatuses, List.mem_singleton, eq_comm, hout.fatal]
    simp only [SomeFatal, hstarted]
    simp
  · rw [hstatuses]
    obtain ⟨missed, hfailed, hmissed⟩ := hout.failed
    refine ⟨missed, hfailed, ?_⟩
    rw [hmissed]
    simp only [SomeUncounted, hstarted]
    simp
  · have hno : Event.reported failed total ∉ l := fun hmem => absurd (hl _ hmem) id
    simp [hno] at hmem

/-- The items are tallied, and the program goes on if none is fatal. -/
def tablePost (host : Host) (n : ℕ) (h : List Event) (s : Machine) (k : ℕ) :
    Post Failure Machine Event Bool where
  done ok h' t := ∃ l, h' = h ++ l ∧ Tally host n s t l k ∧
    (ok = true ↔ Status.fatal ∉ statusesOf l)
  raised _ _ _ := False
  stopped _ := True

theorem wp_eachItem_tallied (items : List (InstallItem CString)) :
    wp host n id (eachItem installCheck items) (tablePost host n h s items.length) h s := by
  refine wp_eachItem (I := fun pre h' t => ∃ l, h' = h ++ l ∧ Tally host n s t l pre.length ∧
    Status.fatal ∉ statusesOf l) ⟨[], by simp, tally_inner (by simp) rfl, by simp [statusesOf]⟩ ?_ ?_
  · rintro _ t ⟨l, rfl, hl, hno⟩
    exact ⟨l, rfl, hl, iff_of_true rfl hno⟩
  · rintro pre item post _ t rfl ⟨l, rfl, hl, hno⟩
    have hover : ∀ {status : Status} {l' : List Event} {u : Machine}, (∀ e ∈ l', Inner e) →
        Outcome host n item t status u → if status = .fatal then
          (tablePost host n h s (pre ++ item :: post).length).done false
            (h ++ l ++ [.started item t] ++ l' ++ [.finished item status u]) u
        else ∃ k, h ++ l ++ [.started item t] ++ l' ++ [.finished item status u] = h ++ k ∧
          Tally host n s u k (pre ++ [item]).length ∧ Status.fatal ∉ statusesOf k := by
      intro status l' u hl' hout
      have htally := hl.append (tally_item hl' hout)
      have hstatuses : statusesOf (l ++ ([.started item t] ++ l' ++ [.finished item status u])) =
          statusesOf l ++ [status] := by rw [statusesOf_append, statusesOf_item hl']
      have hlog : h ++ l ++ [.started item t] ++ l' ++ [.finished item status u] =
          h ++ (l ++ ([.started item t] ++ l' ++ [.finished item status u])) := by simp
      generalize l ++ ([.started item t] ++ l' ++ [.finished item status u]) = k at *
      split_ifs with hfatal
      · have hmem : Status.fatal ∈ statusesOf k := by
          rw [hstatuses, hfatal]
          exact List.mem_append_right _ List.mem_cons_self
        exact ⟨k, hlog, htally.cut hmem, iff_of_false (by decide) (not_not_intro hmem)⟩
      · refine ⟨k, hlog, by rwa [List.length_append], ?_⟩
        rw [hstatuses, List.mem_append, List.mem_singleton, not_or]
        exact ⟨hno, Ne.symm hfatal⟩
    refine wp_mono ((inner_installCheck _).wp_and (wp_installCheck item)) ?_ ?_ fun _ _ => trivial
    · rintro _ h' u ⟨hout, -, l', rfl, hl'⟩
      exact hover hl' hout
    · rintro e h' u ⟨hout, -, -, l', rfl, hl'⟩
      exact hover hl' hout

/-! ### The main program -/

/-- Every item ended with OK, if there are so many items and none ended otherwise. -/
theorem all_ok_iff {statuses : List Status} {items : List (InstallItem CString)}
    (hno : Status.fatal ∉ statuses) (hlen : statuses.length = items.length) :
    statuses = items.map (fun _ => Status.ok) ↔ statuses.count .error = 0 := by
  rw [List.map_const', List.eq_replicate_iff, List.count_eq_zero]
  constructor
  · rintro ⟨-, hall⟩ hmem
    exact absurd (hall _ hmem) (by decide)
  · refine fun herror => ⟨hlen, fun status hmem => ?_⟩
    cases status with
    | ok => rfl
    | error => exact absurd hmem herror
    | fatal => exact absurd hmem hno

/-- When the verdict is right, for a program that returned. -/
def mainPost (host : Host) (n : ℕ) (s : Machine) (insthier : List (InstallItem CString)) :
    Post Failure Machine Event ℕ where
  done code h' _ := IsVerdict insthier code h' ↔
    (insthier = [] → ∃ t, (installInit "conf-sosuffix" host n s).ending = .done () t) ∧
      (SomeFatal host n h' ∨ ¬ SomeUncounted host n h')
  raised _ _ _ := False
  stopped _ := True

/-- The verdict of a program that went through the whole table. -/
theorem isVerdict_iff {insthier : List (InstallItem CString)} {c : ℕ} {r : List Event}
    (hl : Tally host n s t l insthier.length) (hs : s.failed = 0)
    (hno : Status.fatal ∉ statusesOf l) (hcode : c = 0 ↔ t.failed = 0)
    (hr : r = if t.failed = 0 then [] else [.reported t.failed insthier.length]) :
    IsVerdict insthier c (l ++ r) ↔
      SomeFatal host n (l ++ r) ∨ ¬ SomeUncounted host n (l ++ r) := by
  have hstarted : ∀ item u, Event.started item u ∉ r := by
    rw [hr]
    split_ifs <;> simp
  have hfatal : ¬ SomeFatal host n (l ++ r) := by
    rw [someFatal_append, not_or]
    exact ⟨fun hsome => hno (hl.fatal.mpr hsome), fun ⟨item, u, hmem, _⟩ => hstarted item u hmem⟩
  have hcounted : ¬ SomeUncounted host n (l ++ r) ↔ ¬ SomeUncounted host n l := by
    rw [someUncounted_append, not_or]
    exact and_iff_left fun ⟨item, u, hmem, _⟩ => hstarted item u hmem
  have hstatuses : statusesOf (l ++ r) = statusesOf l := by
    rw [statusesOf_append, hr]
    split_ifs <;> simp [statusesOf]
  obtain ⟨missed, hfailed, hmissed⟩ := hl.failed
  rw [or_iff_right hfatal, hcounted, ← hmissed]
  constructor
  · rintro ⟨hzero, -, hreported⟩
    rw [hstatuses, hcode, all_ok_iff hno (hl.whole hno)] at hzero
    rw [hstatuses] at hreported
    by_cases ht : t.failed = 0
    · have := hzero.mp ht
      omega
    · have := hreported t.failed insthier.length (by simp [hr, ht])
      omega
  · refine fun hnone => ⟨?_, ?_, fun failed total hmem => ?_⟩
    · rw [hstatuses, hcode, all_ok_iff hno (hl.whole hno)]
      omega
    · exact fun hmem => absurd (hstatuses ▸ hmem) hno
    · rw [hstatuses]
      rcases List.mem_append.mp hmem with hmem | hmem
      · exact absurd hmem (hl.silent failed total)
      · rw [hr] at hmem
        split_ifs at hmem with ht
        · exact absurd hmem List.not_mem_nil
        · obtain ⟨rfl, -⟩ := Event.reported.inj (List.mem_singleton.mp hmem)
          omega

theorem wp_instchk (insthier : List (InstallItem CString)) (hs : s.failed = 0) :
    wp host n id (instchk insthier) (mainPost host n s insthier) [] s := by
  refine wp_afterInit (fun l t hinit hload hl => ?_) (fun l t hno hl hload => ?_) fun _ _ => trivial
  · have hstart : Tally host n s t l 0 :=
      tally_inner (fun e he => inner_of_ofStream e (hl e he)) hload.failed
    have hcond : insthier = [] →
        ∃ t, (installInit "conf-sosuffix" host n s).ending = .done () t := fun _ => ⟨t, hinit⟩
    rw [wp_bind]
    refine wp_mono (wp_eachItem_tallied insthier) ?_ (fun _ _ _ => id) fun _ => id
    rintro ok h' u ⟨l', rfl, hl', hok⟩
    have htally : Tally host n s u (l ++ l') insthier.length := by
      have := hstart.append hl'
      rwa [Nat.zero_add] at this
    have hinner : statusesOf l = [] :=
      statusesOf_inner fun e he => inner_of_ofStream e (hl e he)
    have hok : ok = true ↔ Status.fatal ∉ statusesOf (l ++ l') := by
      rwa [statusesOf_append, hinner, List.nil_append]
    cases ok with
    | false =>
      simp only [Bool.false_eq_true, false_iff, not_not] at hok
      simp only [Bool.false_eq_true, if_false, wp_pure]
      have hsome := htally.fatal.mp hok
      refine iff_of_true ⟨?_, fun _ => rfl, fun failed total hmem => ?_⟩ ⟨hcond, .inl hsome⟩
      · refine iff_of_false (by decide) fun hall => ?_
        have hmem : Status.fatal ∈ insthier.map fun _ => Status.ok := hall ▸ hok
        simp at hmem
      · exact absurd hmem (htally.silent failed total)
    | true =>
      simp only [true_iff] at hok
      have hno : ¬ SomeFatal host n (l ++ l') := fun hsome => hok (htally.fatal.mpr hsome)
      simp only [if_true, wp_bind, wp_get]
      by_cases ht : u.failed = 0
      · simp only [ht, ne_eq, not_true_eq_false, if_false, wp_pure]
        have hiff := isVerdict_iff (c := 0) (r := []) htally hs hok (by simp [ht]) (by simp [ht])
        rw [List.append_nil] at hiff
        exact hiff.trans (and_iff_right hcond).symm
      · simp only [ht, ne_eq, not_false_eq_true, if_true, wp_bind, wp_note, wp_pure]
        have hiff := isVerdict_iff (c := 1) htally hs hok (by simp [ht]) (if_neg ht).symm
        exact hiff.trans (and_iff_right hcond).symm
  · have hinner : ∀ e ∈ l, Inner e := fun e he => inner_of_ofStream e (hl e he)
    have hstarted : ¬ SomeUncounted host n l := by
      rintro ⟨item, u, hmem, -⟩
      exact hinner _ hmem
    refine Iff.intro (fun hverdict => ⟨?_, .inr hstarted⟩) fun hcond => ⟨?_, ?_, ?_⟩
    · rintro rfl
      have hzero := hverdict.zero.mpr (statusesOf_inner hinner)
      exact absurd hzero (by decide)
    · refine iff_of_false (by decide) fun hall => ?_
      rw [List.nil_append, statusesOf_inner hinner, eq_comm, List.map_eq_nil_iff] at hall
      obtain ⟨u, hu⟩ := hcond.1 hall
      exact hno u hu
    · exact fun _ => rfl
    · exact fun failed total hmem => absurd (hinner _ hmem) id

/-- **The exit status is the verdict** just if no item is given up uncounted, or one is fatal. -/
theorem verdict_iff (insthier : List (InstallItem CString)) (host : Host) (n : ℕ) (fs : FileSys)
    (cwd : Place) {code : ℕ} {t : Machine}
    (hrun : (instchk insthier host n (Machine.initial fs cwd)).ending = .done code t) :
    IsVerdict insthier code (instchk insthier host n (Machine.initial fs cwd)).log ↔
      (insthier = [] →
        ∃ u, (installInit "conf-sosuffix" host n (Machine.initial fs cwd)).ending = .done () u) ∧
      (SomeFatal host n (instchk insthier host n (Machine.initial fs cwd)).log ∨
        ¬ SomeUncounted host n (instchk insthier host n (Machine.initial fs cwd)).log) := by
  have hwp := wp_done (wp_instchk insthier rfl) hrun
  rwa [List.map_id, List.nil_append] at hwp

/-- The link in `lib`, for a user that nobody knows. -/
def strangeLink : InstallItem CString := { libLink with owner := some ['x'] }

/-- An item that is started is the link in `lib`, and its names can be translated. -/
def startsLibLink : Event → Bool
  | .started item u => decide (item = libLink ∧ translated Host.quiet 1 item u = some .ok)
  | _ => true

theorem verdict_iff_link :
    let run := instchk [libLink] Host.quiet 1 (Machine.initial suffixFiles [])
    exitStatus run.ending = some 1 ∧ IsVerdict [libLink] 1 run.log := by
  have hstatus : exitStatus (instchk [libLink] Host.quiet 1
      (Machine.initial suffixFiles [])).ending = some 1 := by decide +kernel
  obtain ⟨t, hrun⟩ := exitStatus_eq_some.mp hstatus
  have hall : ∀ e ∈ (instchk [libLink] Host.quiet 1 (Machine.initial suffixFiles [])).log,
      startsLibLink e = true := List.all_eq_true.mp (by decide +kernel)
  refine ⟨hstatus, (verdict_iff [libLink] Host.quiet 1 suffixFiles [] hrun).mpr ⟨by simp, .inr ?_⟩⟩
  rintro ⟨item, u, hmem, huncounted⟩
  obtain ⟨rfl, hok⟩ := of_decide_eq_true (hall _ hmem)
  rcases huncounted with herror | ⟨-, hunknown⟩
  · simp [hok] at herror
  · exact hunknown ⟨by simp [libLink], by simp [libLink]⟩

/-- An item of an unknown user ends with ERROR, and the program returns 0. -/
theorem not_verdict_strangeLink :
    let run := instchk [strangeLink] Host.quiet 1 (Machine.initial suffixFiles [])
    exitStatus run.ending = some 0 ∧ statusesOf run.log = [.error] ∧
      ¬ IsVerdict [strangeLink] 0 run.log := by
  have hstatuses : statusesOf (instchk [strangeLink] Host.quiet 1
      (Machine.initial suffixFiles [])).log = [.error] := by decide +kernel
  refine ⟨by decide +kernel, hstatuses, fun hverdict => ?_⟩
  have hzero := hverdict.zero.mp rfl
  rw [hstatuses] at hzero
  exact absurd hzero (by decide)

end LuaAdaLoad.Install.Verdict
