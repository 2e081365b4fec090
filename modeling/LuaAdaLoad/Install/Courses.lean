import LuaAdaLoad.Install.Verdict

/-!
# The course of a program through its table

Each of the three programs takes the items of its table one after the other: an item is started when
the one before it has ended, and an item that ends with `INSTALL_STATUS_FATAL` is the last one
(`Course`). Whatever the calls do, a run takes such a course, and its exit status tells how the
course ended (`takes_course`).
-/

namespace LuaAdaLoad.Install.Courses

open LuaAdaLoad.Control.Actions LuaAdaLoad.Control.Weakest LuaAdaLoad.Control.Frames
open LuaAdaLoad.System.Paths LuaAdaLoad.System.FileSystem LuaAdaLoad.Install.Posix
open LuaAdaLoad.Install.Translation LuaAdaLoad.Install.Operators LuaAdaLoad.Install.Programs
open LuaAdaLoad.Install.Calls LuaAdaLoad.Install.Effects
open LuaAdaLoad.Install.StartingDirectory
  (Inner Any AnyFailure inner_of_ofStream tidy_install tidy_deinstall suffixFiles libLink)
open LuaAdaLoad.Install.Verdict (inner_installCheck)

/-! ### Programs and their tables -/

/-- The three programs; a dry run is one of the two that change files. -/
inductive Tool where
  | installer (dryrun : Bool)
  | deinstaller (dryrun : Bool)
  | instchk
deriving DecidableEq

def Tool.main : Tool → List (InstallItem CString) → Proc ℕ
  | .installer dryrun, insthier => Programs.installer insthier dryrun
  | .deinstaller dryrun, insthier => Programs.deinstaller insthier dryrun
  | .instchk, insthier => Programs.instchk insthier

/-- What a program does with one item. -/
def Tool.process : Tool → InstallItem Ptr → Proc Unit
  | .installer dryrun, ins => install ins dryrun
  | .deinstaller dryrun, ins => deinstall ins dryrun
  | .instchk, ins => installCheck ins

/-- The table in the order in which a program goes through it. -/
def Tool.order : Tool → List (InstallItem CString) → List (InstallItem CString)
  | .deinstaller _, insthier => insthier.reverse
  | _, insthier => insthier

theorem inner_process (tool : Tool) (ins : InstallItem Ptr) :
    Within Inner AnyFailure Any (tool.process ins) := by
  cases tool with
  | installer dryrun => exact (tidy_install ins).inner
  | deinstaller dryrun => exact (tidy_deinstall ins).inner
  | instchk => exact inner_installCheck ins

/-! ### Courses -/

/-- An item was started, or ended with a status. -/
inductive Mark where
  | started (item : InstallItem CString)
  | finished (item : InstallItem CString) (status : Status)

/-- What a log tells of the items. -/
def marksOf (h : List Event) : List Mark := h.filterMap fun
  | .started item _ => some (.started item)
  | .finished item status _ => some (.finished item status)
  | _ => none

/-- How a course ended. -/
inductive Finish where
  | whole
  | fatal
  | stopped

variable {May : InstallItem CString → Status → Prop}

/-- The courses through a table, if each item may end with these statuses. -/
inductive Course (May : InstallItem CString → Status → Prop) :
    List (InstallItem CString) → List Mark → Finish → Prop
  | nil : Course May [] [] .whole
  | cons {item : InstallItem CString} {status : Status} {items : List (InstallItem CString)}
    {marks : List Mark} {finish : Finish} (hgoes : status ≠ .fatal) (hmay : May item status)
    (tail : Course May items marks finish) :
    Course May (item :: items) (.started item :: .finished item status :: marks) finish
  | fatal {item : InstallItem CString} {items : List (InstallItem CString)}
    (hmay : May item .fatal) :
    Course May (item :: items) [.started item, .finished item .fatal] .fatal
  | stopped {item : InstallItem CString} {items : List (InstallItem CString)} :
    Course May (item :: items) [.started item] .stopped

variable {items : List (InstallItem CString)} {marks : List Mark} {finish : Finish}

/-- A course that is not cut short goes through the whole table, and no item ends with FATAL. -/
theorem Course.whole (h : Course May items marks .whole) : ∃ statuses : List Status,
    statuses.length = items.length ∧ (∀ x ∈ items.zip statuses, x.2 ≠ .fatal ∧ May x.1 x.2) ∧
      marks = (items.zip statuses).flatMap fun x => [.started x.1, .finished x.1 x.2] := by
  generalize hfinish : Finish.whole = finish at h
  induction h with
  | nil => exact ⟨[], rfl, by simp, rfl⟩
  | @cons item status items marks finish hgoes hmay _ ih =>
    obtain ⟨statuses, hlen, hall, rfl⟩ := ih hfinish
    refine ⟨status :: statuses, congrArg (· + 1) hlen, ?_, rfl⟩
    rw [List.zip_cons_cons, List.forall_mem_cons]
    exact ⟨⟨hgoes, hmay⟩, hall⟩
  | fatal _ => exact absurd hfinish nofun
  | stopped => exact absurd hfinish nofun

/-- No course ends with FATAL if no item may. -/
theorem Course.not_fatal (h : Course May items marks finish)
    (hno : ∀ item ∈ items, ¬ May item .fatal) : finish ≠ .fatal := by
  induction h with
  | nil => exact nofun
  | cons _ _ _ ih => exact ih fun item hitem => hno item (List.mem_cons_of_mem _ hitem)
  | fatal hmay => exact absurd hmay (hno _ List.mem_cons_self)
  | stopped => exact nofun

/-! ### Runs -/

variable {host : Host} {n : ℕ} {h : List Event} {s t : Machine}

theorem marksOf_append (l l' : List Event) : marksOf (l ++ l') = marksOf l ++ marksOf l' :=
  List.filterMap_append

theorem marksOf_inner {l : List Event} (hl : ∀ e ∈ l, Inner e) : marksOf l = [] := by
  refine List.filterMap_eq_nil_iff.mpr fun e he => ?_
  cases e with
  | started item s => exact absurd (hl _ he) id
  | finished item status s => exact absurd (hl _ he) id
  | _ => rfl

/-- Whenever the function ends with a status, the item may end with it. -/
def MayEnd (May : InstallItem CString → Status → Prop) (process : InstallItem Ptr → Proc Unit)
    (item : InstallItem CString) : Prop :=
  ∀ host n h s, wp host n id (process (loaded item))
    ⟨fun _ _ _ => May item .ok, fun e _ _ => May item e.status, fun _ => True⟩ h s

theorem marksOf_started {item : InstallItem CString} {l : List Event} (hl : ∀ e ∈ l, Inner e) :
    marksOf ([.started item s] ++ l) = [.started item] := by
  rw [marksOf_append, marksOf_inner hl]
  rfl

theorem marksOf_item {item : InstallItem CString} {status : Status} {l : List Event}
    (hl : ∀ e ∈ l, Inner e) : marksOf ([.started item s] ++ l ++ [.finished item status t]) =
      [.started item, .finished item status] := by
  rw [marksOf_append, marksOf_started hl]
  rfl

/-- A course through the items was taken. -/
def coursePost (May : InstallItem CString → Status → Prop) (h : List Event)
    (items : List (InstallItem CString)) : Post Failure Machine Event Bool where
  done ok h' _ := ∃ l, h' = h ++ l ∧
    Course May items (marksOf l) (if ok then .whole else .fatal)
  raised _ _ _ := False
  stopped h' := ∃ l, h' = h ++ l ∧ Course May items (marksOf l) .stopped

/-- After the items `pre`, every course through the others gives one through all of them. -/
def Leads (May : InstallItem CString → Status → Prop) (pre : List (InstallItem CString))
    (l : List Event) : Prop :=
  ∀ items marks finish, Course May items marks finish →
    Course May (pre ++ items) (marksOf l ++ marks) finish

theorem wp_eachItem_course {process : InstallItem Ptr → Proc Unit}
    (hinner : ∀ ins, Within Inner AnyFailure Any (process ins))
    (items : List (InstallItem CString)) (hmay : ∀ item ∈ items, MayEnd May process item) :
    wp host n id (eachItem process items) (coursePost May h items) h s := by
  refine wp_eachItem (I := fun pre h' _ => ∃ l, h' = h ++ l ∧ Leads May pre l)
    ⟨[], by simp, fun _ _ _ => id⟩ ?_ ?_
  · rintro _ t ⟨l, rfl, hleads⟩
    exact ⟨l, rfl, by simpa using hleads [] [] .whole .nil⟩
  · rintro pre item post _ t rfl ⟨l, rfl, hleads⟩
    have hover : ∀ {status : Status} {l' : List Event} {u : Machine}, May item status →
        (∀ e ∈ l', Inner e) → if status = .fatal then
          (coursePost May h (pre ++ item :: post)).done false
            (h ++ l ++ [.started item t] ++ l' ++ [.finished item status u]) u
        else ∃ k, h ++ l ++ [.started item t] ++ l' ++ [.finished item status u] = h ++ k ∧
          Leads May (pre ++ [item]) k := by
      intro status l' u hstatus hl
      split_ifs with hfatal
      · subst hfatal
        refine ⟨l ++ ([.started item t] ++ l' ++ [.finished item .fatal u]), by simp, ?_⟩
        rw [marksOf_append, marksOf_item hl]
        exact hleads _ _ _ (.fatal hstatus)
      · refine ⟨l ++ ([.started item t] ++ l' ++ [.finished item status u]), by simp, ?_⟩
        intro items marks finish hcourse
        rw [marksOf_append, marksOf_item hl, List.append_assoc, List.append_assoc]
        exact hleads _ _ _ (.cons hfatal hstatus hcourse)
    refine wp_mono ((hinner _).wp_and (hmay item (by simp) host n _ t)) ?_ ?_ ?_
    · rintro _ h' u ⟨hstatus, -, l', rfl, hl⟩
      exact hover hstatus hl
    · rintro e h' u ⟨hstatus, -, -, l', rfl, hl⟩
      exact hover hstatus hl
    · rintro h' ⟨-, l', rfl, hl⟩
      refine ⟨l ++ ([.started item t] ++ l'), by simp, ?_⟩
      rw [marksOf_append, marksOf_started hl]
      exact hleads _ _ _ .stopped

/-! ### The main programs -/

/-- The exit status after a course: 0 when the table is done, or 1 where the checker found
something, and 112 after a fatal item. -/
def Tool.exits (tool : Tool) : Finish → ℕ → Prop
  | .whole, code => code = 0 ∨ tool = .instchk ∧ code = 1
  | .fatal, code => code = 112
  | .stopped, _ => False

/-- The suffix of libraries was read, and a course taken through the table; or it could not be read,
no item was started, and the exit status is 112. -/
def Took (May : InstallItem CString → Status → Prop) (tool : Tool)
    (insthier : List (InstallItem CString)) (host : Host) (n : ℕ) (s : Machine) (code : ℕ)
    (h : List Event) : Prop :=
  ((∃ u, (installInit "conf-sosuffix" host n s).ending = .done () u) ∧ ∃ finish,
    Course May (tool.order insthier) (marksOf h) finish ∧ tool.exits finish code) ∨
  ((∀ u, (installInit "conf-sosuffix" host n s).ending ≠ .done () u) ∧ code = 112 ∧
    marksOf h = [])

/-- A run takes a course; one that stops may do so before it starts an item. -/
structure TakesCourse (May : InstallItem CString → Status → Prop) (tool : Tool)
    (insthier : List (InstallItem CString)) (host : Host) (n : ℕ) (s : Machine) : Prop where
  done : ∀ code t, (tool.main insthier host n s).ending = .done code t →
    Took May tool insthier host n s code (tool.main insthier host n s).log
  stopped : (∀ code t, (tool.main insthier host n s).ending ≠ .done code t) →
    marksOf (tool.main insthier host n s).log = [] ∨
    Course May (tool.order insthier) (marksOf (tool.main insthier host n s).log) .stopped

/-- What is known when a program ends. -/
def mainPost (May : InstallItem CString → Status → Prop) (tool : Tool)
    (insthier : List (InstallItem CString)) (host : Host) (n : ℕ) (s : Machine) :
    Post Failure Machine Event ℕ where
  done code h _ := Took May tool insthier host n s code h
  raised _ _ _ := False
  stopped h := marksOf h = [] ∨ Course May (tool.order insthier) (marksOf h) .stopped

/-- Behind the initialisation, the table is gone through. -/
theorem wp_table {tool : Tool} {insthier : List (InstallItem CString)} {l : List Event}
    {u : Machine} {rest : Bool → Proc ℕ}
    (hmay : ∀ item ∈ insthier, MayEnd May tool.process item) (hl : ∀ e ∈ l, OfStream e)
    (hinit : (installInit "conf-sosuffix" host n s).ending = .done () u)
    (hrest : ∀ ok h t, wp host n id (rest ok) ⟨fun code h' _ => marksOf h' = marksOf h ∧
      tool.exits (if ok then .whole else .fatal) code, fun _ _ _ => False, fun _ => False⟩ h t) :
    wp host n id (do rest (← eachItem tool.process (tool.order insthier)))
      (mainPost May tool insthier host n s) ([] ++ l) u := by
  have hnone : marksOf l = [] := marksOf_inner fun e he => inner_of_ofStream e (hl e he)
  have hitems : ∀ item ∈ tool.order insthier, MayEnd May tool.process item := by
    intro item hitem
    refine hmay item ?_
    cases tool with
    | deinstaller dryrun => exact List.mem_reverse.mp hitem
    | _ => exact hitem
  rw [wp_bind]
  refine wp_mono (wp_eachItem_course (inner_process tool) _ hitems) ?_ (fun _ _ _ => id) ?_
  · rintro ok h' t ⟨l', rfl, hcourse⟩
    refine wp_mono (hrest ok _ t) ?_ (fun _ _ _ => id) fun _ hstop => hstop.elim
    rintro code h' u' ⟨hmarks, hexits⟩
    refine .inl ⟨⟨u, hinit⟩, _, ?_, hexits⟩
    rw [hmarks, marksOf_append, List.nil_append, hnone, List.nil_append]
    exact hcourse
  · rintro h' ⟨l', rfl, hcourse⟩
    refine .inr ?_
    rw [marksOf_append, List.nil_append, hnone, List.nil_append]
    exact hcourse

theorem wp_main {tool : Tool} {insthier : List (InstallItem CString)}
    (hmay : ∀ item ∈ insthier, MayEnd May tool.process item) :
    wp host n id (tool.main insthier) (mainPost May tool insthier host n s) [] s := by
  have hnone : ∀ {l : List Event}, (∀ e ∈ l, OfStream e) → marksOf ([] ++ l) = [] := fun hl =>
    marksOf_inner fun e he => inner_of_ofStream e (hl e he)
  have hexit : ∀ l t, (∀ u, (installInit "conf-sosuffix" host n s).ending ≠ .done () u) →
      (∀ e ∈ l, OfStream e) → Loaded s t →
      (mainPost May tool insthier host n s).done 112 ([] ++ l) t := fun l t hno hl _ =>
    .inr ⟨hno, rfl, hnone hl⟩
  have hstop : ∀ l, (∀ e ∈ l, OfStream e) →
      (mainPost May tool insthier host n s).stopped ([] ++ l) := fun l hl => .inl (hnone hl)
  cases tool with
  | installer dryrun =>
    refine wp_afterInit (fun l u hinit _ hl => ?_) hexit hstop
    refine wp_table hmay hl hinit fun ok h t => ?_
    cases ok with
    | true =>
      simp only [if_true, wp_pure]
      exact ⟨trivial, .inl rfl⟩
    | false =>
      simp only [Bool.false_eq_true, if_false, wp_pure]
      exact ⟨trivial, rfl⟩
  | deinstaller dryrun =>
    refine wp_afterInit (fun l u hinit _ hl => ?_) hexit hstop
    split_ifs with hnil
    · exact wp_abort.mpr (hstop l hl)
    · refine wp_table hmay hl hinit fun ok h t => ?_
      cases ok with
      | true =>
        simp only [if_true, wp_pure]
        exact ⟨trivial, .inl rfl⟩
      | false =>
        simp only [Bool.false_eq_true, if_false, wp_pure]
        exact ⟨trivial, rfl⟩
  | instchk =>
    refine wp_afterInit (fun l u hinit _ hl => ?_) hexit hstop
    refine wp_table hmay hl hinit fun ok h t => ?_
    cases ok with
    | true =>
      simp only [if_true, wp_bind, wp_get]
      split_ifs
      · simp only [wp_bind, wp_note, wp_pure, id]
        refine ⟨?_, .inr ⟨rfl, rfl⟩⟩
        rw [marksOf_append]
        simp [marksOf]
      · rw [wp_pure]
        exact ⟨rfl, .inl rfl⟩
    | false =>
      simp only [Bool.false_eq_true, if_false, wp_pure]
      exact ⟨trivial, rfl⟩

theorem takesCourse_of_may {tool : Tool} {insthier : List (InstallItem CString)}
    (hmay : ∀ item ∈ insthier, MayEnd May tool.process item) :
    TakesCourse May tool insthier host n s := by
  have hwp : wp host n id (tool.main insthier) (mainPost May tool insthier host n s) [] s :=
    wp_main hmay
  unfold wp at hwp
  rw [List.map_id, List.nil_append] at hwp
  rcases hend : (tool.main insthier host n s).ending with ⟨code, t⟩ | ⟨e, t⟩ | _ | _ <;>
    rw [hend] at hwp
  · refine ⟨fun code' t' hrun => ?_, fun hno => absurd hend (hno code t)⟩
    obtain ⟨rfl, -⟩ := Ending.done.inj (hend.symm.trans hrun)
    exact hwp
  · exact absurd hwp id
  · exact ⟨fun code' t' hrun => absurd (hend.symm.trans hrun) nofun, fun _ => hwp⟩
  · exact ⟨fun code' t' hrun => absurd (hend.symm.trans hrun) nofun, fun _ => hwp⟩

/-- **Every run takes a course through its table.** -/
theorem takes_course (tool : Tool) (insthier : List (InstallItem CString)) (host : Host) (n : ℕ)
    (s : Machine) : TakesCourse (fun _ _ => True) tool insthier host n s :=
  takesCourse_of_may fun _ _ _ _ _ _ =>
    wp_of_history (fun _ _ _ => trivial) (fun _ _ _ => trivial) fun _ => trivial

end LuaAdaLoad.Install.Courses
