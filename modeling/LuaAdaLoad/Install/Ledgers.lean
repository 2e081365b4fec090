import LuaAdaLoad.Install.Courses
import LuaAdaLoad.Install.Journals

/-!
# Ledgers of runs

The log of a run tells of each item where it was started, and with which status and in which state
it ended (`entriesOf`). These entries are what the program did with the items one after the other
(`Ledger`), whichever calls failed (`ledger_of_main`); so a fact on what a program does with an item
becomes one on whole runs by induction on the ledger.
-/

namespace LuaAdaLoad.Install.Ledgers

open LuaAdaLoad.Control.Actions LuaAdaLoad.Control.Weakest LuaAdaLoad.Control.Frames
open LuaAdaLoad.System.Paths LuaAdaLoad.Install.Posix LuaAdaLoad.Install.Translation
open LuaAdaLoad.Install.Programs LuaAdaLoad.Install.Calls LuaAdaLoad.Install.Effects
open LuaAdaLoad.Install.Courses (Tool inner_process)
open LuaAdaLoad.Install.Journals (Start startsOf startsOf_append)
open LuaAdaLoad.Install.StartingDirectory (Inner inner_of_ofStream)

variable {tool : Tool} {host : Host} {n : ℕ} {h l l' : List Event} {s t u : Machine}

/-! ### Entries -/

/-- An item that ended: where it was started, and how and where it ended. -/
structure Entry where
  start : Start
  status : Status
  state : Machine

/-- How and where items ended, in their order. -/
def endsOf (h : List Event) : List (Status × Machine) := h.filterMap fun
  | .finished _ status t => some (status, t)
  | _ => none

/-- The items that ended, in their order. -/
def entriesOf (h : List Event) : List Entry :=
  ((startsOf h).zip (endsOf h)).map fun x => ⟨x.1, x.2.1, x.2.2⟩

/-- Every item that was started has ended. -/
def Paired (h : List Event) : Prop := (startsOf h).length = (endsOf h).length

theorem endsOf_append (l l' : List Event) : endsOf (l ++ l') = endsOf l ++ endsOf l' :=
  List.filterMap_append

/-- The event neither starts nor ends an item. -/
def Silent : Event → Prop
  | .started _ _ => False
  | .finished _ _ _ => False
  | _ => True

theorem silent_of_inner (hl : ∀ e ∈ l, Inner e) : ∀ e ∈ l, Silent e := by
  intro e he
  have hinner := hl e he
  cases e with
  | started item s => exact hinner
  | finished item status t => exact hinner
  | _ => trivial

theorem startsOf_silent (hl : ∀ e ∈ l, Silent e) : startsOf l = [] := by
  refine List.filterMap_eq_nil_iff.mpr fun e he => ?_
  cases e with
  | started item s => exact absurd (hl _ he) id
  | _ => rfl

theorem endsOf_silent (hl : ∀ e ∈ l, Silent e) : endsOf l = [] := by
  refine List.filterMap_eq_nil_iff.mpr fun e he => ?_
  cases e with
  | finished item status t => exact absurd (hl _ he) id
  | _ => rfl

theorem Paired.append (hl : Paired l) (hl' : Paired l') : Paired (l ++ l') := by
  unfold Paired at *
  rw [startsOf_append, endsOf_append, List.length_append, List.length_append, hl, hl']

theorem entriesOf_append (hl : Paired l) : entriesOf (l ++ l') = entriesOf l ++ entriesOf l' := by
  unfold entriesOf
  rw [startsOf_append, endsOf_append, List.zip_append hl, List.map_append]

theorem entriesOf_silent (hl : ∀ e ∈ l, Silent e) : Paired l ∧ entriesOf l = [] := by
  unfold Paired entriesOf
  rw [startsOf_silent hl, endsOf_silent hl]
  exact ⟨rfl, rfl⟩

theorem start_mem {x : Entry} (hx : x ∈ entriesOf l) : x.start ∈ startsOf l := by
  obtain ⟨y, hy, rfl⟩ := List.mem_map.mp hx
  exact (List.of_mem_zip hy).1

/-! ### Ledgers -/

/-- The processing of the item ended like this. -/
def Entry.Ended (x : Entry) : Ending Failure Machine Unit → Prop
  | .done _ t => x.status = .ok ∧ x.state = t
  | .raised e t => x.status = e.status ∧ x.state = t
  | _ => False

/-- What holds of every ending of an item holds of the entry. -/
theorem Entry.Ended.of_wp {x : Entry} {process : Proc Unit} {P : Status → Machine → Prop}
    (hx : x.Ended (process host n s).ending)
    (hwp : wp host n id process ⟨fun _ _ t => P .ok t, fun e _ t => P e.status t,
      fun _ => True⟩ [] s) : P x.status x.state := by
  rcases hend : (process host n s).ending with ⟨a, t⟩ | ⟨e, t⟩ | _ | _ <;> rw [hend] at hx
  · obtain ⟨hstatus, rfl⟩ := hx
    rw [hstatus]
    exact wp_done hwp hend
  · obtain ⟨hstatus, rfl⟩ := hx
    rw [hstatus]
    exact wp_raised hwp hend
  · exact hx.elim
  · exact hx.elim

/-- The items are processed one after the other. -/
inductive Ledger (tool : Tool) (host : Host) (n : ℕ) : Machine → List Entry → Machine → Prop
  | nil (s : Machine) : Ledger tool host n s [] s
  | cons {x : Entry} {entries : List Entry} {t : Machine}
    (head : x.Ended (tool.process (loaded x.start.item) host n x.start.state).ending)
    (tail : Ledger tool host n x.state entries t) :
    Ledger tool host n x.start.state (x :: entries) t

theorem ledger_append {entries entries' : List Entry} :
    Ledger tool host n s (entries ++ entries') u ↔
      ∃ t, Ledger tool host n s entries t ∧ Ledger tool host n t entries' u := by
  induction entries generalizing s with
  | nil =>
    refine ⟨fun h => ⟨s, .nil s, h⟩, ?_⟩
    rintro ⟨t, h, h'⟩
    cases h
    exact h'
  | cons e entries ih =>
    constructor
    · intro h
      cases h with
      | cons head tail =>
        obtain ⟨t, h, h'⟩ := ih.mp tail
        exact ⟨t, .cons head h, h'⟩
    · rintro ⟨t, h, h'⟩
      cases h with
      | cons head tail => exact .cons head (ih.mpr ⟨t, tail, h'⟩)

/-! ### Runs -/

/-- The entries so far are what was done since. -/
def ledgerPost {α : Type} (tool : Tool) (host : Host) (n : ℕ) (h : List Event) (s : Machine) :
    Post Failure Machine Event α where
  done _ h' t := ∃ l, h' = h ++ l ∧ Paired l ∧ Ledger tool host n s (entriesOf l) t
  raised _ _ _ := False
  stopped _ := True

theorem wp_eachItem_ledger (items : List (InstallItem CString)) :
    wp host n id (eachItem tool.process items) (ledgerPost tool host n h s) h s := by
  have hlog : ∀ {item : InstallItem CString} {t : Machine} {l : List Event} (status : Status)
      (u : Machine), (∀ e ∈ l, Inner e) →
      Paired ([.started item t] ++ l ++ [.finished item status u]) ∧
        entriesOf ([.started item t] ++ l ++ [.finished item status u]) =
          [⟨⟨item, t⟩, status, u⟩] := by
    intro item t l status u hl
    have hsilent := silent_of_inner hl
    unfold Paired entriesOf
    rw [startsOf_append, startsOf_append, startsOf_silent hsilent, endsOf_append, endsOf_append,
      endsOf_silent hsilent]
    exact ⟨rfl, rfl⟩
  refine wp_eachItem (I := fun _ => (ledgerPost tool host n h s :
    Post Failure Machine Event Bool).done true) ⟨[], by simp, rfl, .nil s⟩ (fun _ _ => id) ?_
  rintro pre item post _ t - ⟨l, rfl, hl, ht⟩
  have hover : ∀ {status : Status} {l' : List Event} {u : Machine}, (∀ e ∈ l', Inner e) →
      Entry.Ended ⟨⟨item, t⟩, status, u⟩ (tool.process (loaded item) host n t).ending →
      (ledgerPost tool host n h s : Post Failure Machine Event Bool).done true
        (h ++ l ++ [.started item t] ++ l' ++ [.finished item status u]) u := by
    intro status l' u hl' hended
    obtain ⟨hpaired, hentries⟩ := hlog status u hl'
    refine ⟨l ++ ([.started item t] ++ l' ++ [.finished item status u]), by simp,
      hl.append hpaired, ?_⟩
    rw [entriesOf_append hl, hentries]
    exact ledger_append.mpr ⟨t, ht, .cons hended (.nil u)⟩
  refine wp_mono (wp_and_ending (inner_process tool _).wp) ?_ ?_ fun _ _ => trivial
  · rintro _ h' u ⟨⟨-, l', rfl, hl'⟩, hend⟩
    exact hover hl' (by rw [hend]; exact ⟨rfl, rfl⟩)
  · rintro e h' u ⟨⟨-, -, l', rfl, hl'⟩, hend⟩
    have hdone := hover hl' (by rw [hend]; exact ⟨rfl, rfl⟩)
    simp only [endPost]
    split_ifs
    · exact hdone
    · exact hdone

/-- The log of the run is its ledger, from the state behind the initialisation on. -/
def mainPost (tool : Tool) (host : Host) (n : ℕ) (s : Machine) :
    Post Failure Machine Event ℕ where
  done _ h t := Paired h ∧ ∃ u, Loaded s u ∧ Ledger tool host n u (entriesOf h) t
  raised _ _ _ := False
  stopped _ := True

/-- Behind the initialisation, the table is gone through. -/
theorem wp_table_ledger {items : List (InstallItem CString)} {rest : Bool → Proc ℕ}
    (hl : ∀ e ∈ l, OfStream e) (hload : Loaded s u)
    (hrest : ∀ ok, Within Silent (fun _ => False) Eq (rest ok)) :
    wp host n id (do rest (← eachItem tool.process items)) (mainPost tool host n s) ([] ++ l) u := by
  obtain ⟨hpaired, hentries⟩ := entriesOf_silent (silent_of_inner fun e he =>
    inner_of_ofStream e (hl e he))
  rw [wp_bind]
  refine wp_mono (wp_eachItem_ledger items) ?_ (fun _ _ _ => id) fun _ => id
  rintro ok h' t ⟨l', rfl, hl', ht⟩
  refine wp_mono (hrest ok).wp ?_ (fun e _ _ hf => hf.1) fun _ _ => trivial
  rintro code h' v ⟨rfl, l'', rfl, hl''⟩
  obtain ⟨hpaired', hentries'⟩ := entriesOf_silent hl''
  rw [List.nil_append]
  refine ⟨(hpaired.append hl').append hpaired', u, hload, ?_⟩
  rw [entriesOf_append (hpaired.append hl'), entriesOf_append hpaired, hentries, hentries',
    List.nil_append, List.append_nil]
  exact ht

theorem wp_main_ledger (insthier : List (InstallItem CString)) :
    wp host n id (tool.main insthier) (mainPost tool host n s) [] s := by
  have hexit : ∀ l t, (∀ u, (installInit "conf-sosuffix" host n s).ending ≠ .done () u) →
      (∀ e ∈ l, OfStream e) → Loaded s t → (mainPost tool host n s).done 112 ([] ++ l) t := by
    intro l t _ hl hload
    obtain ⟨hpaired, hentries⟩ := entriesOf_silent (silent_of_inner fun e he =>
    inner_of_ofStream e (hl e he))
    refine ⟨hpaired, t, hload, ?_⟩
    rw [List.nil_append, hentries]
    exact .nil t
  cases tool with
  | installer dryrun =>
    refine wp_afterInit (fun l u _ hload hl => ?_) hexit fun _ _ => trivial
    exact wp_table_ledger hl hload fun ok => within_ite (within_pure _) (within_pure _)
  | deinstaller dryrun =>
    refine wp_afterInit (fun l u _ hload hl => ?_) hexit fun _ _ => trivial
    split_ifs
    · exact wp_abort.mpr trivial
    · exact wp_table_ledger hl hload fun ok => within_ite (within_pure _) (within_pure _)
  | instchk =>
    refine wp_afterInit (fun l u _ hload hl => ?_) hexit fun _ _ => trivial
    refine wp_table_ledger hl hload fun ok => within_ite ?_ (within_pure _)
    refine within_bind within_get fun t => within_ite ?_ (within_pure _)
    exact within_bind (within_note trivial) fun _ => within_pure _

/-- **The ledger of a run.** When a program ends, its log tells what it did with the items one after
the other. -/
theorem ledger_of_main (tool : Tool) {insthier : List (InstallItem CString)} {code : ℕ}
    (hrun : (tool.main insthier host n s).ending = .done code t) :
    Paired (tool.main insthier host n s).log ∧ ∃ u, Loaded s u ∧
      Ledger tool host n u (entriesOf (tool.main insthier host n s).log) t := by
  have hmain := wp_done (wp_main_ledger insthier) hrun
  rwa [List.map_id, List.nil_append] at hmain

end LuaAdaLoad.Install.Ledgers
