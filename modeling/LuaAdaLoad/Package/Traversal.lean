import LuaAdaLoad.Package.Client
import LuaAdaLoad.Package.Rounds

/-!
# The stack during a traversal

While nothing is caught, a bracketed program that returns leaves the stack as it found it, provided
that it starts with a value other than nil on top (`Prog.neutral`); where it raises `Load_Error`, at
most one value is missing. So a traversal whose `Process` is such a program goes through the entries
of its table in order (`tableIterate_visits`), and one that raises leaves more on the stack than
there was (`tableIterate_grows`).
-/

namespace LuaAdaLoad.Package.Traversal

open LuaAdaLoad.Control.Actions LuaAdaLoad.Control.Weakest LuaAdaLoad.Text.Strings
open LuaAdaLoad.Lua.Values LuaAdaLoad.Package.Base LuaAdaLoad.Package.Names
open LuaAdaLoad.Package.Readers LuaAdaLoad.Package.Tables LuaAdaLoad.Package.Rules
open LuaAdaLoad.Package.Rounds LuaAdaLoad.Package.Client

def NotCaught : Happening → Prop
  | .caught => False
  | _ => True

instance : DecidablePred NotCaught := fun w => by
  unfold NotCaught
  split <;> infer_instance

/-- No `Load_Error` was caught. -/
abbrev Calm (h : List Event) : Prop := Always NotCaught h

/-! ### Programs -/

section Programs

variable {lua : Interp} {n : ℕ} {path : List Element} {h : List Event} {s : State}
variable {σ : List Value} {α : Type}

/-- While nothing is caught: the stack is as it was, or at most one value of it is missing. -/
def stackPost (α : Type) (σ : List Value) : Post Exn State Event α where
  done _ h s := Calm h → s.luaState = σ
  raised e h s := Calm h → e = .constraintError ∨ σ.length ≤ s.luaState.length + 1
  stopped _ := True

/-- An action that leaves the stack as it found it, unless it raises. -/
def Neutral (x : Load α) : Prop :=
  ∀ lua n path h s v σ, v ≠ .nil → (Calm h → s.luaState = v :: σ) →
    wp lua n (under path) x (stackPost α (v :: σ)) h s

theorem wp_stackPost_of_caught {x : Load α} (hc : ¬ Calm h) :
    wp lua n (under path) x (stackPost α σ) h s :=
  wp_of_history (fun _ _ _ hl => absurd (always_append.mp hl).1 hc)
    (fun _ _ _ hl => absurd (always_append.mp hl).1 hc) fun _ => trivial

theorem neutral_read (c : Reader) : Neutral (Prog.read c).run := by
  intro lua n path h s v σ hv hs
  refine wp_read c ?_ ?_ ?_ trivial
  · intro a l s' _ hs' hl
    have hσ := hs (by simp_all)
    rcases hs' with rfl | ⟨hnil, -⟩
    · exact hσ
    · rw [hσ, typeAt_top, type_eq_nil_iff] at hnil
      exact absurd hnil hv
  · intro target expected name t ht hl
    have hσ := hs (by simp_all)
    right
    rcases ht with rfl | ⟨-, rfl⟩ <;> simp [blamed, dropped, hσ]
  · intro x l s' _ _ _
    exact .inl rfl

theorem neutral_bracket {name : UString} {body : Prog Unit} (hbody : Neutral body.run) :
    Neutral (Prog.bracket name body).run := by
  intro lua n path h s v σ _ hs
  rw [wp_bracket]
  refine wp_tableStart name trivial ?_ ?_ ?_
  · intro t rest w _ _ _ hl
    have hσ := hs (by simp_all)
    exact .inr (by simp [blamed, pushed, hσ])
  · intro t u rest _ _ _ s' _
    exact .inl rfl
  · intro t u rest _ _ _
    refine wp_mono (hbody lua n _ _ _ (.table u) (v :: σ) (by simp) ?_) ?_ ?_ fun _ _ => trivial
    · intro hl
      have hσ := hs (by simp_all)
      simp [pushed, hσ]
    · intro _ h₁ t₁ hdone
      refine wp_tableEnd ?_ ?_ ?_
      · intro htop hl
        have ht₁ := hdone (by simp_all)
        rw [ht₁] at htop
        exact absurd rfl htop
      · intro _ _ s' _
        exact .inl rfl
      · intro _ _ _ hl
        have ht₁ := hdone (by simp_all)
        simp [dropped, ht₁]
    · intro e h₁ t₁ hraised hl
      rcases hraised hl with he | hlen
      · exact .inl he
      · right
        simp only [List.length_cons] at hlen ⊢
        omega

/-- A traversal leaves the stack as it found it, or raises with more on it. -/
theorem tableIterate_stack {process : Load Unit} (hp : Neutral process) (σ : List Value)
    (hs : Calm h → s.luaState = σ) :
    wp lua n (under path) (tableIterate process)
      ⟨fun _ h s => Calm h → s.luaState = σ,
        fun e h s => Calm h → e = .constraintError ∨ typeAt σ (-1) ≠ .table ∧ s.luaState = σ ∨
          σ.length < s.luaState.length,
        fun _ => True⟩ h s := by
  refine wp_tableIterate (L := fun h u => Calm h → ∃ key, u.luaState = key :: σ) ?_ ?_
    (fun _ _ _ => trivial) ?_ ?_
  · intro htop hl
    have hσ := hs (by simp_all)
    exact .inr (.inl ⟨hσ ▸ htop, by simp [blamed, hσ]⟩)
  · intro t rest _ hl
    exact ⟨.nil, by simp [pushed, hs hl]⟩
  · intro h u key t rest hL hu _ hl
    obtain ⟨key', hkey⟩ := hL hl
    rw [hu, List.cons.injEq] at hkey
    exact hkey.2
  · intro h u key t rest k v hL hu hnext
    have hv : v ≠ .nil := (lua.tables t).values_valid _ (Table.next_mem hnext)
    have htop : Calm h → Value.table t :: rest = σ := fun hl => by
      obtain ⟨key', hkey⟩ := hL hl
      rw [hu, List.cons.injEq] at hkey
      exact hkey.2
    refine wp_iterateBody rfl (fun _ s' _ => .inl rfl) fun _ => ?_
    refine wp_mono (hp lua n _ _ _ v (k :: σ) hv ?_) ?_ ?_ fun _ _ => trivial
    · intro hl
      have hσ := htop (by simp_all)
      rw [entered_luaState, hσ]
    · rintro _ h₁ t₁ hdone
      refine ⟨fun _ _ hl => ⟨k, ?_⟩, fun _ _ => trivial, fun _ s' _ => .inl rfl⟩
      have ht₁ := hdone (by simp_all)
      simp [dropped, ht₁]
    · intro e h₁ t₁ hraised
      cases e with
      | loadError m =>
        refine ⟨fun _ hl => .inr (.inr ?_), fun _ s' _ => .inl rfl⟩
        rcases hraised (by simp_all) with he | hlen
        · simp at he
        · simp only [List.length_cons, left_luaState] at hlen ⊢
          omega
      | constraintError => exact fun _ => .inl rfl

/-- **A bracketed program** leaves the stack as it found it, unless it raises. -/
theorem Prog.neutral {A : UString → Prop} {p : Prog α} (hp : p.Bracketed A) : Neutral p.run := by
  induction p with
  | pure a => intro lua n path h s v σ _ hs; simpa [Prog.run, stackPost] using hs
  | bind p q ihp ihq =>
    intro lua n path h s v σ hv hs
    rw [Prog.run, wp_bind]
    exact wp_mono (ihp hp.1 lua n path h s v σ hv hs)
      (fun a h₁ s₁ h₁s => ihq a (hp.2 a) lua n path h₁ s₁ v σ hv h₁s) (fun _ _ _ he => he)
      fun _ ht => ht
  | remember =>
    intro lua n path h s v σ _ hs
    simpa [Prog.run, wp_bind, stackPost] using hs
  | keep m => intro lua n path h s v σ _ hs; simpa [Prog.run, stackPost] using hs
  | read c => exact neutral_read c
  | tableStart name => exact absurd hp id
  | tableEnd => exact absurd hp id
  | bracket name body ih => exact neutral_bracket (ih hp.2)
  | iterate process ih =>
    intro lua n path h s v σ hv hs
    rw [wp_iterate]
    refine wp_mono (tableIterate_stack (ih hp) (v :: σ) fun hl => hs (by simp_all))
      (fun _ _ _ hd => hd) (fun e h₁ s₁ he hl => ?_) fun _ _ => trivial
    rcases he hl with he | ⟨-, he⟩ | he
    · exact .inl he
    · exact .inr (by rw [he]; omega)
    · exact .inr (by omega)
  | handle p handler ihp ihh =>
    intro lua n path h s v σ hv hs
    refine wp_handle (wp_mono (ihp hp.1 lua n path h s v σ hv hs) (fun _ _ _ hd => hd) ?_
      fun _ ht => ht)
    intro e h₁ s₁ he
    cases e with
    | loadError m => exact wp_stackPost_of_caught (by simp [NotCaught])
    | constraintError => exact fun _ => .inl rfl
  | raise m =>
    intro lua n path h s v σ _ hs
    rw [Prog.run, wp_raise]
    exact fun hl => .inr (by rw [hs hl]; omega)

end Programs

/-! ### Traversals -/

section Traversals

variable {lua : Interp} {n : ℕ} {s s' : State} {A : UString → Prop} {p : Prog Unit}
variable {t : TableRef} {rest : List Value}

/-- The stacks with which the outermost calls of `Process` were made. -/
def visits (l : List Event) : List (List Value) :=
  l.filterMap fun
    | ⟨[], .process _ s⟩ => some s.luaState
    | _ => none

@[simp] theorem visits_nil : visits [] = [] := rfl

@[simp] theorem visits_append (a b : List Event) : visits (a ++ b) = visits a ++ visits b := by
  simp [visits]

@[simp] theorem visits_under (e : Element) (l : List Event) :
    visits (l.map (under [e])) = [] := by
  simp [visits, under]

@[simp] theorem visits_naming (s : State) (k : Value) : visits (naming s k) = [] := by
  unfold naming
  split
  · rename_i x
    cases integerOf x <;> rfl
  · rfl
  · rfl

@[simp] theorem visits_removal (s : State) (k : Value) : visits (removal s k) = [] := by
  unfold removal
  split_ifs <;> rfl

/-- What is asserted of the history in every ending holds of the log. -/
theorem log_of_wp {lua : Interp} {n : ℕ} {s : State} {α : Type} {x : Load α}
    {Q : Post Exn State Event α} {P : List Event → Prop} (hwp : wp lua n (under []) x Q [] s)
    (hd : ∀ a h s, Q.done a h s → P h) (he : ∀ e h s, Q.raised e h s → P h)
    (hs : ∀ h, Q.stopped h → P h) : P (x lua n s).log := by
  rw [wp, List.nil_append, under_nil_map] at hwp
  rcases hrun : (x lua n s).ending with ⟨a, s'⟩ | ⟨e, s'⟩ | _ | _ <;> rw [hrun] at hwp
  · exact hd a _ s' hwp
  · exact he e _ s' hwp
  · exact hs _ hwp
  · exact hs _ hwp

/-- **A traversal is exact**: `Process` is called once for every entry, in order, each time with the
key and the value on top of the stack, and the stack is left as it was. The log is that of the rounds,
in each of which `Process` ran in the state of its record and returned. -/
theorem tableIterate_visits (hp : p.Bracketed A) (hs : s.luaState = .table t :: rest)
    (hrun : (tableIterate p.run lua n s).ending = .done () s')
    (hcalm : Calm (tableIterate p.run lua n s).log) :
    visits (tableIterate p.run lua n s).log =
        (lua.tables t).entries.map (fun e => e.2 :: e.1 :: s.luaState) ∧
      s'.luaState = s.luaState ∧
      ∃ u, Passed lua n p.run s (pushed s .nil) (tableIterate p.run lua n s).log u ∧
        s' = dropped u := by
  have hwp : wp lua n (under []) (tableIterate p.run)
      ⟨fun _ h u => Calm h → visits h =
          (lua.tables t).entries.map (fun e => e.2 :: e.1 :: s.luaState) ∧
            u.luaState = s.luaState, fun _ _ _ => True, fun _ => True⟩ [] s := by
    refine wp_tableIterate (L := fun h u => Calm h → ∃ pre post,
      (lua.tables t).entries = pre ++ post ∧ u.luaState = lastKey pre :: s.luaState ∧
        visits h = pre.map fun e => e.2 :: e.1 :: s.luaState)
      (fun _ => trivial) ?_ (fun _ _ _ => trivial) ?_ ?_
    · intro t' rest' _ _
      exact ⟨[], _, rfl, rfl, rfl⟩
    · intro h u key t' rest' hL hu hnext hl
      obtain ⟨pre, post, hes, hkey, hvis⟩ := hL hl
      rw [hu, hs] at hkey
      obtain ⟨rfl, rfl, rfl⟩ : key = lastKey pre ∧ t' = t ∧ rest' = rest := by simpa using hkey
      rw [Table.next_lastKey hes, Option.some.injEq, List.head?_eq_none_iff] at hnext
      subst hnext
      rw [List.append_nil] at hes
      exact ⟨by rw [hvis, hes], hs.symm⟩
    · intro h u key t' rest' k v hL hu hnext
      have hv : v ≠ .nil := (lua.tables t').values_valid _ (Table.next_mem hnext)
      refine wp_iterateBody rfl (fun _ _ => trivial) fun _ => ?_
      refine wp_mono (wp_history (Prog.neutral hp lua n _ _ _ v (k :: .table t' :: rest') hv ?_))
        ?_ ?_ fun _ _ => trivial
      · intro _; rw [entered_luaState]
      · rintro _ h₁ t₁ ⟨hdone, lp, rfl⟩
        refine ⟨fun _ _ hl => ?_, fun _ _ => trivial, fun _ _ => trivial⟩
        obtain ⟨pre, post, hes, hkey, hvis⟩ := hL (by simp_all)
        have ht₁ := hdone (by simp_all)
        rw [hu, hs] at hkey
        obtain ⟨rfl, rfl, rfl⟩ : key = lastKey pre ∧ t' = t ∧ rest' = rest := by simpa using hkey
        rw [Table.next_lastKey hes, Option.some.injEq] at hnext
        obtain ⟨post', rfl⟩ : ∃ post', post = (k, v) :: post' := by
          cases post with
          | nil => simp at hnext
          | cons e post' => exact ⟨post', by simpa using hnext⟩
        refine ⟨pre ++ [(k, v)], post', by simp [hes], ?_, ?_⟩
        · simp [dropped, ht₁, hs]
        · simp only [visits_append, under_nil_map, visits_naming, visits_removal, hvis,
            List.nil_append, visits_under, List.append_nil, List.map_append]
          simp [visits, hs]
      · rintro e h₁ t₁ -
        cases e with
        | loadError m => exact ⟨fun _ => trivial, fun _ _ => trivial⟩
        | constraintError => trivial
  obtain ⟨hvisits, hstack⟩ := wp_done hwp hrun (by simpa [under_nil_map] using hcalm)
  rw [List.nil_append, under_nil_map] at hvisits
  exact ⟨hvisits, hstack, tableIterate_rounds hs hrun⟩

/-- A table that holds a string, and a table that holds it. -/
def nestedTables : Interp := .ofTables
  [.ofRecord [("a".toList, .table 1), ("b".toList, .boolean true)] (by decide) (by decide),
    textTable]

/-- Go through the entry of the table on top, if it is one, and read its values. -/
def readNested : Prog Unit := .bind (.read .valueType) fun
  | .table => .iterate (.bind (.read (.ofLocalConditional .string [])) fun _ => .pure ())
  | _ => .pure ()

theorem readNested_bracketed : readNested.Bracketed fun _ => True := by
  refine ⟨trivial, fun type => ?_⟩
  cases type with
  | table => exact ⟨trivial, fun _ => trivial⟩
  | _ => trivial

theorem tableIterate_visits_nested :
    visits (tableIterate readNested.run nestedTables 9 (session 0)).log =
      [[.table 1, .string "a".toList, .table 0], [.boolean true, .string "b".toList, .table 0]] :=
  have htop : (session 0).luaState = [.table 0] := rfl
  have hrun : (tableIterate readNested.run nestedTables 9 (session 0)).ending =
    .done () (session 0) := rfl
  (tableIterate_visits readNested_bracketed htop hrun (by decide)).1

/-- **A traversal that raises** the first `Load_Error` leaves more on the stack than there was. -/
theorem tableIterate_grows (hp : p.Bracketed A) (hs : s.luaState = .table t :: rest) {m : UString}
    (hrun : (tableIterate p.run lua n s).ending = .raised (.loadError m) s')
    (hcalm : Calm (tableIterate p.run lua n s).log) :
    s.luaState.length < s'.luaState.length := by
  have hwp : wp lua n (under []) (tableIterate p.run) _ [] s :=
    tableIterate_stack (Prog.neutral hp) s.luaState fun _ => rfl
  rcases wp_raised hwp hrun (by simpa [under_nil_map] using hcalm) with he | ⟨he, -⟩ | he
  · simp at he
  · rw [hs] at he; exact absurd rfl he
  · exact he

end Traversals

end LuaAdaLoad.Package.Traversal
