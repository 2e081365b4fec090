import LuaAdaLoad.Package.NamePath

/-!
# Errors are reported at the element that is open

Every component on the path comes from a bracket of the program or from a key of a table
(`Prog.sourced`). Where all of these are plain, the message of a `Load_Error` that nobody catches
names the elements that were open when it was raised, and is what `Error_String` gives after it has
left all traversals.
-/

namespace LuaAdaLoad.Package.ErrorReports

open LuaAdaLoad.Control.Actions LuaAdaLoad.Control.Weakest LuaAdaLoad.Text.Dotted
open LuaAdaLoad.Text.Strings LuaAdaLoad.Lua.Values LuaAdaLoad.Package.Base
open LuaAdaLoad.Package.Names LuaAdaLoad.Package.Tables LuaAdaLoad.Package.Rules
open LuaAdaLoad.Package.Client LuaAdaLoad.Package.Traversal LuaAdaLoad.Package.NamePath

/-- A component comes from a bracket of the program, or from a key of a table. -/
def FromSource (lua : Interp) (A : UString → Prop) (name : UString) : Prop :=
  A name ∨ ∃ t, ∃ e ∈ (lua.tables t).entries, component e.1 = some name

def AddsSourced (lua : Interp) (A : UString → Prop) : Happening → Prop
  | .adding name _ => FromSource lua A name
  | _ => True

/-- All components that were added come from a source. -/
abbrev Sourced (lua : Interp) (A : UString → Prop) (h : List Event) : Prop :=
  Always (AddsSourced lua A) h

section Sources

variable {lua : Interp} {n : ℕ} {A : UString → Prop} {path : List Element} {h : List Event}
variable {s : State} {α : Type}

theorem sourced_conversions {l : List Event} (hl : Conversions l) : Sourced lua A l := by
  intro ev hev
  obtain ⟨x, -, rfl⟩ := hl ev hev
  trivial

theorem sourced_removal (s : State) (k : Value) : Sourced lua A (removal s k) := by
  unfold removal
  split_ifs <;> simp [AddsSourced]

theorem sourced_naming {k : Value}
    (hk : ∀ name, component k = some name → FromSource lua A name) :
    Sourced lua A (naming s k) := by
  intro ev hev
  cases k with
  | number x =>
    cases hx : integerOf x with
    | none =>
      obtain rfl : ev = _ := by simpa [naming, hx] using hev
      trivial
    | some i =>
      rcases (by simpa [naming, hx] using hev : ev = _ ∨ ev = _) with rfl | rfl
      · trivial
      · exact hk _ (by simp [component, hx])
  | string name =>
    obtain rfl : ev = _ := by simpa [naming] using hev
    exact hk name rfl
  | _ => simp [naming] at hev

/-- Wherever a program ends, all components that were added come from a source. -/
def sourcedPost (lua : Interp) (A : UString → Prop) (α : Type) : Post Exn State Event α where
  done _ h _ := Sourced lua A h
  raised _ h _ := Sourced lua A h
  stopped h := Sourced lua A h

theorem Prog.sourced {p : Prog α} (hp : p.Bracketed A) : ∀ {path h s}, Sourced lua A h →
    wp lua n (under path) p.run (sourcedPost lua A α) h s := by
  induction p with
  | pure a => intro path h s hs; simpa [Prog.run, sourcedPost] using hs
  | bind p q ihp ihq =>
    intro path h s hs
    rw [Prog.run, wp_bind]
    exact wp_mono (ihp hp.1 hs) (fun a h₁ s₁ h₁s => ihq a (hp.2 a) h₁s) (fun _ _ _ he => he)
      fun _ ht => ht
  | remember => intro path h s hs; simpa [Prog.run, wp_bind, sourcedPost] using hs
  | keep m => intro path h s hs; simpa [Prog.run, sourcedPost] using hs
  | read c =>
    intro path h s hs
    refine wp_read c ?_ ?_ ?_ ?_
    · intro a l s' hl _
      simp [sourcedPost, hs, AddsSourced, sourced_conversions hl]
    · intro target expected name t _
      simp [sourcedPost, hs, AddsSourced]
    · intro x l s' hl _
      simp [sourcedPost, hs, AddsSourced, sourced_conversions hl]
    · simp [sourcedPost, hs, AddsSourced]
  | tableStart name => exact absurd hp id
  | tableEnd => exact absurd hp id
  | bracket name body ih =>
    intro path h s hs
    have hname : FromSource lua A name := .inl hp.1
    rw [wp_bracket]
    refine wp_tableStart name ?_ ?_ ?_ ?_
    · simp [sourcedPost, hs, AddsSourced]
    · intro t rest v _ _ _
      simp [sourcedPost, hs, AddsSourced]
    · intro t u rest _ _ _ s'
      simp [sourcedPost, hs, AddsSourced, hname]
    · intro t u rest _ _ _
      refine wp_mono (ih hp.2 (by simp [hs, AddsSourced, hname])) ?_ (fun _ _ _ he => he)
        fun _ ht => ht
      intro _ h₁ t₁ (hdone : Sourced lua A h₁)
      refine wp_tableEnd ?_ ?_ ?_
      · intro _; simp [sourcedPost, hdone, AddsSourced]
      · intro _ _ s'; simp [sourcedPost, hdone, AddsSourced]
      · intro _ _ _; simp [sourcedPost, hdone, AddsSourced]
  | iterate process ih =>
    intro path h s hs
    rw [wp_iterate]
    refine wp_tableIterate (L := fun h _ => Sourced lua A h) ?_ ?_ (fun _ _ hL => hL)
      (fun _ _ _ _ _ hL _ _ => hL) ?_
    · intro _; simp [sourcedPost, hs, AddsSourced]
    · intro t rest _; simp [hs, AddsSourced]
    · intro h u key t rest k v hL _ hnext
      have hnaming : ∀ u, Sourced lua A (naming u k) := fun u =>
        sourced_naming fun name hk => .inr ⟨t, (k, v), Table.next_mem hnext, hk⟩
      refine wp_iterateBody rfl (fun _ s' => ?_) fun _ => ?_
      · simp [sourcedPost, hL, hnaming]
      · refine wp_mono (ih hp (by simp [hL, hnaming, AddsSourced])) ?_ ?_ fun _ ht => ht
        · intro _ h₁ t₁ (hdone : Sourced lua A h₁)
          simp [leaving, sourcedPost, hdone, sourced_removal, AddsSourced]
        · intro e h₁ t₁ (hraised : Sourced lua A h₁)
          cases e <;> simp [leaving, sourcedPost, hraised, sourced_removal, AddsSourced]
  | handle p handler ihp ihh =>
    intro path h s hs
    refine wp_handle (wp_mono (ihp hp.1 hs) (fun _ _ _ hd => hd) ?_ fun _ ht => ht)
    intro e h₁ s₁ (he : Sourced lua A h₁)
    cases e with
    | loadError m => exact ihh m (hp.2 m) (by simp [he, AddsSourced])
    | constraintError => exact he
  | raise m => intro path h s hs; simpa [Prog.run, sourcedPost] using hs

end Sources

/-! ### Messages -/

/-- The component of an integer key is plain. -/
theorem plain_indexComponent (i : AdaInteger) : Plain '.' (indexComponent i) := by
  refine ⟨by simp [indexComponent], fun h => ?_⟩
  simp only [indexComponent, List.mem_append] at h
  rcases h with (h | h) | h
  · exact absurd h (by decide)
  · exact dot_notMem_trimLeft_image _ h
  · exact absurd h (by decide)

/-- The string keys of all tables are plain. -/
def PlainKeys (lua : Interp) : Prop :=
  ∀ t, ∀ e ∈ (lua.tables t).entries, ∀ name, e.1 = .string name → Plain '.' name

theorem FromSource.plain {lua : Interp} (hkeys : PlainKeys lua) {name : UString}
    (h : FromSource lua (Plain '.') name) : Plain '.' name := by
  rcases h with h | ⟨t, ⟨k, v⟩, hmem, hk⟩
  · exact h
  · cases k with
    | number x =>
      obtain ⟨i, -, rfl⟩ : ∃ i, integerOf x = some i ∧ indexComponent i = name := by
        simpa [component] using hk
      exact plain_indexComponent i
    | string str =>
      obtain rfl : str = name := by simpa [component] using hk
      exact hkeys t _ hmem str rfl
    | _ => simp [component] at hk

theorem undoable_of_sourced {lua : Interp} (hkeys : PlainKeys lua) {h : List Event}
    (hs : Sourced lua (Plain '.') h) : Undoable h := by
  intro ev hev
  have hsrc := hs ev hev
  unfold AddsUndone
  split
  · rename_i name s hw
    rw [hw] at hsrc
    exact undoes_of_plain (hsrc.plain hkeys) _
  · trivial

section Messages

variable {lua : Interp} {n : ℕ} {s : State} {α : Type} {p : Prog α}

theorem undoable_run (hp : p.Bracketed (Plain '.')) (hkeys : PlainKeys lua) :
    Undoable (p.run lua n s).log := by
  have hwp : wp lua n (under []) p.run (sourcedPost lua (Plain '.') α) [] s :=
    Prog.sourced hp (always_nil _)
  refine undoable_of_sourced hkeys ?_
  exact log_of_wp hwp (fun _ _ _ => id) (fun _ _ _ => id) fun _ => id

end Messages

theorem nestedTables_plainKeys : PlainKeys nestedTables := by
  intro t
  match t with
  | 0 =>
    intro e he name hn
    rcases (by simpa [nestedTables, Interp.ofTables, Table.ofRecord] using he :
      e = (.string "a".toList, .table 1) ∨ e = (.string "b".toList, .boolean true)) with rfl | rfl
    · obtain rfl : "a".toList = name := by simpa using hn
      decide
    · obtain rfl : "b".toList = name := by simpa using hn
      decide
  | 1 =>
    intro e he name hn
    obtain rfl : e = (.string "x".toList, .string "t".toList) := by
      simpa [nestedTables, Interp.ofTables, textTable, Table.ofRecord] using he
    obtain rfl : "x".toList = name := by simpa using hn
    decide
  | t + 2 =>
    intro e he
    simp [nestedTables, Interp.ofTables] at he

/-- Read numbers two tables deep. -/
def readNumbers : Prog Unit := .iterate <| .bind (.read .valueType) fun
  | .table => .iterate (.bind (.read (.ofLocal .float)) fun _ => .pure ())
  | _ => .pure ()

theorem readNumbers_bracketed : readNumbers.Bracketed (Plain '.') := by
  refine ⟨trivial, fun type => ?_⟩
  cases type with
  | table => exact ⟨trivial, fun _ => trivial⟩
  | _ => trivial

end LuaAdaLoad.Package.ErrorReports
