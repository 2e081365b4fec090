import LuaAdaLoad.Package.Rules

/-!
# The rounds of a traversal

One round of `Table_Iterate` is one call of `Process`. A traversal that returns went through rounds,
in each of which `Process` ran and returned, and its log consists of theirs (`tableIterate_rounds`).
One that raises `Load_Error` does so in a call of `Process` after some rounds, and its handler takes
the component of the entry away and does nothing else (`tableIterate_handler`). This call is
determined by the state in which the traversal began (`raisedIn_unique`).
-/

namespace LuaAdaLoad.Package.Rounds

open LuaAdaLoad.Control.Actions LuaAdaLoad.Control.Weakest LuaAdaLoad.Text.Strings
open LuaAdaLoad.Lua.Values LuaAdaLoad.Package.Base LuaAdaLoad.Package.Names
open LuaAdaLoad.Package.Readers LuaAdaLoad.Package.Tables LuaAdaLoad.Package.Rules

variable {lua : Interp} {n : ℕ} {process : Load Unit} {s s' u u' f atCall : State} {key : Value}
variable {l l' : List Event} {m : UString} {t : TableRef} {rest : List Value}

/-- What is logged in the round of the entry of a key: `Process` logs `inner` and returns in the
state `w`. -/
def roundLog (atCall s w : State) (k : Value) (inner : List Event) : List Event :=
  naming s k ++ [⟨[], .process atCall (entered s k)⟩] ++ inner.map (under [.entry k]) ++
    removal w k

/-- In the state `u` the loop calls `lua_next` and gets the entry of a key: in the state `f` its key
and its value are on the stack. -/
def Faces (lua : Interp) (u : State) (key : Value) (f : State) : Prop :=
  ∃ before t rest v, u.luaState = before :: .table t :: rest ∧
    (lua.tables t).next before = some (some (key, v)) ∧
    f = { u with luaState := v :: key :: .table t :: rest }

/-- A round in which `Process` returns, from one call of `lua_next` to the next one. -/
def Round (lua : Interp) (n : ℕ) (process : Load Unit) (atCall u : State) (l : List Event)
    (u' : State) : Prop :=
  ∃ key f inner w, Faces lua u key f ∧ process lua n (entered f key) = ⟨inner, .done () w⟩ ∧
    l = roundLog atCall f w key inner ∧ u' = dropped (left w key)

/-- Rounds that follow one another, and what they log. -/
inductive Passed (lua : Interp) (n : ℕ) (process : Load Unit) (atCall : State) :
    State → List Event → State → Prop
  | nil (u : State) : Passed lua n process atCall u [] u
  | cons {u u' u'' : State} {l l' : List Event} (head : Round lua n process atCall u l u')
    (tail : Passed lua n process atCall u' l' u'') : Passed lua n process atCall u (l ++ l') u''

theorem Passed.snoc (h : Passed lua n process atCall s l u)
    (hu : Round lua n process atCall u l' u') : Passed lua n process atCall s (l ++ l') u' := by
  induction h with
  | nil u =>
    rw [List.nil_append, ← List.append_nil l']
    exact .cons hu (.nil u')
  | cons head tail ih =>
    rw [List.append_assoc]
    exact .cons head (ih hu)

/-- The traversal that is called in the state `s` comes to the entry of a key, and there the call of
`Process` raises in the state `u`. -/
def RaisedIn (lua : Interp) (n : ℕ) (process : Load Unit) (s : State) (m : UString) (key : Value)
    (u : State) : Prop :=
  ∃ l w f, Passed lua n process s (pushed s .nil) l w ∧ Faces lua w key f ∧
    (process lua n (entered f key)).ending = .raised (.loadError m) u

/-! ### One way to go -/

theorem faces_unique {key' : Value} {f' : State} (h : Faces lua u key f) (h' : Faces lua u key' f') :
    key = key' ∧ f = f' := by
  obtain ⟨before, t, rest, v, hu, hnext, rfl⟩ := h
  obtain ⟨before', t', rest', v', hu', hnext', rfl⟩ := h'
  obtain ⟨rfl, rfl, rfl⟩ : before = before' ∧ t = t' ∧ rest = rest' := by
    simpa using hu.symm.trans hu'
  obtain ⟨rfl, rfl⟩ : key = key' ∧ v = v' := by simpa using hnext.symm.trans hnext'
  exact ⟨rfl, rfl⟩

theorem round_unique (h : Round lua n process atCall s l u) (h' : Round lua n process atCall s l' u') :
    u = u' := by
  obtain ⟨key, f, inner, w, hf, hrun, -, rfl⟩ := h
  obtain ⟨key', f', inner', w', hf', hrun', -, rfl⟩ := h'
  obtain ⟨rfl, rfl⟩ := faces_unique hf hf'
  obtain ⟨-, rfl⟩ : inner = inner' ∧ w = w' := by simpa using hrun.symm.trans hrun'
  rfl

/-- Where `Process` raises there is no round. -/
theorem not_round_of_raised (hf : Faces lua u key f)
    (hraise : (process lua n (entered f key)).ending = .raised (.loadError m) s') :
    ¬ Round lua n process atCall u l u' := by
  rintro ⟨key', f', inner, w, hf', hrun, -, -⟩
  obtain ⟨rfl, rfl⟩ := faces_unique hf hf'
  rw [hrun] at hraise
  exact absurd hraise (by simp)

/-- **A traversal raises in one call** of `Process` only. -/
theorem raisedIn_unique {m' : UString} {key' : Value} (h : RaisedIn lua n process s m key u)
    (h' : RaisedIn lua n process s m' key' u') : key = key' ∧ u = u' := by
  obtain ⟨l, w, f, hrounds, hf, hu⟩ := h
  obtain ⟨l', w', f', hrounds', hf', hu'⟩ := h'
  obtain rfl : w = w' := by
    generalize pushed s .nil = first at hrounds hrounds'
    induction hrounds generalizing l' with
    | nil w =>
      cases hrounds' with
      | nil => rfl
      | cons head tail => exact absurd head (not_round_of_raised hf hu)
    | cons head tail ih =>
      cases hrounds' with
      | nil => exact absurd head (not_round_of_raised hf' hu')
      | cons head' tail' =>
        obtain rfl := round_unique head head'
        exact ih hf _ tail'
  obtain ⟨rfl, rfl⟩ := faces_unique hf hf'
  obtain ⟨-, rfl⟩ : m = m' ∧ u = u' := by simpa using hu.symm.trans hu'
  exact ⟨rfl, rfl⟩

/-! ### What a traversal consists of -/

/-- Rounds, and then the end of the table or a call of `Process` that raises. -/
theorem tableIterate_passes (hs : s.luaState = .table t :: rest) :
    wp lua n (under []) (tableIterate process)
      ⟨fun _ l s' => ∃ u, Passed lua n process s (pushed s .nil) l u ∧ s' = dropped u,
        fun e _ s' => ∀ m, e = .loadError m →
          ∃ key u, RaisedIn lua n process s m key u ∧ Removable u key ∧ s' = left u key,
        fun _ => True⟩ [] s := by
  refine wp_tableIterate (L := fun l u => Passed lua n process s (pushed s .nil) l u)
    ?_ (fun _ _ _ => .nil _) (fun _ _ _ => trivial) ?_ ?_
  · intro htop
    rw [hs] at htop
    exact absurd rfl htop
  · intro l u before t rest hpassed hu _
    exact ⟨u, hpassed, by rw [dropped, hu]; rfl⟩
  · intro l u before t rest k v hpassed hu hnext
    have hfaces : Faces lua u k _ := ⟨before, t, rest, v, hu, hnext, rfl⟩
    refine wp_iterateBody rfl (fun _ s' m he => by simp at he) fun _ => ?_
    generalize { u with luaState := v :: k :: .table t :: rest } = f at hfaces ⊢
    rcases hrun : process lua n (entered f k) with ⟨inner, ⟨a, w⟩ | ⟨e, w⟩ | _ | _⟩ <;>
      rw [wp_of_run hrun]
    · have hround : Round lua n process s u (roundLog s f w k inner) (dropped (left w k)) :=
        ⟨k, f, inner, w, hfaces, hrun, rfl, rfl⟩
      refine ⟨fun _ _ => ?_, fun _ _ => trivial, fun _ s' m he => by simp at he⟩
      simpa [under_nil_map, roundLog] using hpassed.snoc hround
    · cases e with
      | loadError m' =>
        refine ⟨fun hr m he => ?_, fun _ s' m he => by simp at he⟩
        obtain rfl : m' = m := by simpa using he
        exact ⟨k, w, ⟨l, u, f, hpassed, hfaces, by rw [hrun]⟩, hr, rfl⟩
      | constraintError => exact fun m he => by simp at he
    · trivial
    · trivial

/-- **A traversal that returns** went through rounds, and its log is theirs. -/
theorem tableIterate_rounds (hs : s.luaState = .table t :: rest)
    (hrun : (tableIterate process lua n s).ending = .done () s') :
    ∃ u, Passed lua n process s (pushed s .nil) (tableIterate process lua n s).log u ∧
      s' = dropped u := by
  simpa [under_nil_map] using wp_done (tableIterate_passes hs) hrun

/-- **The handler** takes the component of the entry away in the state in which `Process` raised, and
does nothing else. -/
theorem tableIterate_handler (hs : s.luaState = .table t :: rest)
    (hrun : (tableIterate process lua n s).ending = .raised (.loadError m) s') :
    ∃ key u, RaisedIn lua n process s m key u ∧ Removable u key ∧ s' = left u key :=
  wp_raised (tableIterate_passes hs) hrun m rfl

end LuaAdaLoad.Package.Rounds
