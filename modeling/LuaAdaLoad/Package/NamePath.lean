import LuaAdaLoad.Package.Traversal

/-!
# The name path

The path names the open element as long as every component that is added is one that the removal
undoes (`Undoes`): `wp_names` says this of all bracketed programs. It also follows a `Load_Error` on
its way out: the components that are not yet removed all are, one for each entry that is left
(`Grown.cut`), so that no removal fails and the message stays what it was.
-/

namespace LuaAdaLoad.Package.NamePath

open LuaAdaLoad.Control.Actions LuaAdaLoad.Control.Weakest LuaAdaLoad.Text.Dotted
open LuaAdaLoad.Text.Strings LuaAdaLoad.Lua.Values LuaAdaLoad.Package.Base
open LuaAdaLoad.Package.Names LuaAdaLoad.Package.Tables LuaAdaLoad.Package.Rules
open LuaAdaLoad.Package.Client LuaAdaLoad.Package.Traversal

/-- The component that an element adds to the path, if any. -/
def nameOf : Element → Option UString
  | .entry key => component key
  | .bracket name => some name

/-- The components that the elements add. -/
def namesOf (path : List Element) : List UString := path.filterMap nameOf

/-- The path from `c` inside of the elements. -/
def pathFrom (c : UString) (path : List Element) : UString := (namesOf path).foldl (extend '.') c

/-- The removal undoes the addition of `name` to `c`, and does not fail. -/
def Undoes (c name : UString) : Prop := extend '.' c name ≠ [] ∧ Undone '.' c name

instance (c name : UString) : Decidable (Undoes c name) := by unfold Undoes; infer_instance

/-- An addition that is about to happen is undone by the removal. -/
def AddsUndone : Happening → Prop
  | .adding name s => Undoes s.nameCode name
  | _ => True

instance : DecidablePred AddsUndone := fun w => by
  unfold AddsUndone
  split <;> infer_instance

/-- Every addition that happened is undone by the removal. -/
abbrev Undoable (h : List Event) : Prop := Always AddsUndone h

def NotFailed : Happening → Prop
  | .failed _ _ _ _ => False
  | _ => True

/-- No call of `Type_Error` happened. -/
abbrev Clean (h : List Event) : Prop := Always NotFailed h

/-- The path names the element that is open at an event. -/
def Named (c : UString) (ev : Event) : Prop :=
  match ev.what with
  | .reached s => s.nameCode = pathFrom c ev.within
  | .process _ s => ∃ k, stackAt s.luaState (-2) = some k ∧
      s.nameCode = pathFrom c (ev.within ++ [.entry k])
  | .failed _ _ _ s => s.nameCode = pathFrom c ev.within
  | _ => True

/-- Nothing was caught, and every addition is undone by the removal. -/
def Steady (h : List Event) : Prop := Calm h ∧ Undoable h

theorem Steady.left {a b : List Event} (h : Steady (a ++ b)) : Steady a :=
  ⟨(always_append.mp h.1).1, (always_append.mp h.2).1⟩

/-! ### Components -/

section Components

variable {c c' name : UString} {path : List Element} {j : ℕ}

theorem namesOf_append (path : List Element) (e : Element) :
    namesOf (path ++ [e]) = namesOf path ++ (nameOf e).toList := by
  cases he : nameOf e <;> simp [namesOf, he]

theorem pathFrom_append (c : UString) (path : List Element) (e : Element) :
    pathFrom c (path ++ [e]) =
      (nameOf e).elim (pathFrom c path) (extend '.' (pathFrom c path)) := by
  cases he : nameOf e <;> simp [pathFrom, namesOf_append, he]

theorem Undoes.cut (h : Undoes c name) : cutLast '.' (extend '.' c name) = c :=
  (cutLast_extend_iff c name).mpr h.2

theorem undoes_of_plain (h : Plain '.' name) (c : UString) : Undoes c name :=
  ⟨extend_ne_nil h.1, h.undone c⟩

/-- The path `c'` is `c` with `j` components more, each of which the removal undoes. -/
inductive Grown (c : UString) : ℕ → UString → Prop
  | refl : Grown c 0 c
  | add {j : ℕ} {c' name : UString} (h : Grown c j c') (hu : Undoes c' name) :
      Grown c (j + 1) (extend '.' c' name)

theorem Grown.head (hu : Undoes c name) (h : Grown (extend '.' c name) j c') :
    Grown c (j + 1) c' := by
  induction h with
  | refl => exact .add .refl hu
  | add _ hu' ih => exact .add ih hu'

/-- A removal takes one of the components away. -/
theorem Grown.cut (h : Grown c (j + 1) c') : c' ≠ [] ∧ Grown c j (cutLast '.' c') := by
  cases h with
  | add h hu => exact ⟨hu.1, by rw [hu.cut]; exact h⟩

end Components

/-! ### Programs -/

section Programs

variable {lua : Interp} {n : ℕ} {c : UString} {d : ℕ} {path : List Element} {h : List Event}
variable {s : State} {α : Type}

/-- The message of the errors that happened, and what `Error_String` gives. -/
def Reported (m : UString) (s : State) (h : List Event) : Prop :=
  ∀ ev ∈ h, ∀ target expected name u, ev.what = .failed target expected name u →
    m = typeErrorMessage u.nameCode target expected name ∧ s.errString = m

/-- Inside of the elements of `path`, after the history `h`. -/
def Within (c : UString) (d : ℕ) (path : List Element) (h : List Event) (s : State) : Prop :=
  Steady h → (∀ ev ∈ h, Named c ev) ∧ Clean h ∧ s.nameCode = pathFrom c path ∧
    s.nameDepth = d + (namesOf path).length

/-- What a program ensures inside of the elements of `path`. -/
def namesPost (α : Type) (c : UString) (d : ℕ) (path : List Element) :
    Post Exn State Event α where
  done _ := Within c d path
  raised e h s := Steady h → (∀ ev ∈ h, Named c ev) ∧ match e with
    | .loadError m => Reported m s h ∧ ∃ j, Grown (pathFrom c path) j s.nameCode ∧
        s.nameDepth = d + (namesOf path).length + j
    | .constraintError => Clean h
  stopped h := Steady h → (∀ ev ∈ h, Named c ev) ∧ Clean h

/-- An action that keeps the path. -/
def KeepsPath (x : Load α) : Prop :=
  ∀ lua n c d path h s, Within c d path h s →
    wp lua n (under path) x (namesPost α c d path) h s

theorem reported_of_clean {l : List Event} (hl : Clean l) (m : UString) (s : State) :
    Reported m s l := by
  intro ev hev target expected name u hu
  have := hl ev hev
  rw [hu] at this
  exact absurd this id

theorem Reported.append {m : UString} {a b : List Event} (ha : Reported m s a)
    (hb : Reported m s b) : Reported m s (a ++ b) := by
  intro ev hev
  rcases List.mem_append.mp hev with hev | hev
  · exact ha ev hev
  · exact hb ev hev

/-- The only error of the history is the last event. -/
theorem reported_failed {h : List Event} (hc : Clean h) (target : Target) (expected : LuaType)
    (name : UString) (t : State) :
    Reported (typeErrorMessage t.nameCode target expected name) (blamed t target expected name)
      (h ++ [⟨path, .failed target expected name t⟩]) := by
  refine (reported_of_clean hc _ _).append fun ev hev target' expected' name' u hu => ?_
  rw [List.mem_singleton.mp hev] at hu
  obtain ⟨rfl, rfl, rfl, rfl⟩ : target = target' ∧ expected = expected' ∧ name = name' ∧ t = u := by
    simpa using hu
  exact ⟨rfl, rfl⟩

/-- Happenings that say nothing about the path. -/
def Mute : Happening → Prop
  | .adding _ _ => True
  | .removing _ => True
  | .started => True
  | .ending => True
  | .ended => True
  | .toInteger _ => True
  | .toLongInteger _ => True
  | _ => False

/-- Events that say nothing about the path. -/
abbrev Silent (l : List Event) : Prop := Always Mute l

theorem Silent.named {l : List Event} (hl : Silent l) {ev : Event} (hev : ev ∈ l) :
    Named c ev := by
  have hm := hl ev hev
  unfold Named
  split <;> simp_all [Mute]

theorem Silent.clean {l : List Event} (hl : Silent l) : Clean l := fun ev hev => by
  have hm := hl ev hev
  unfold NotFailed
  split <;> simp_all [Mute]

theorem silent_single (path : List Element) {w : Happening} (hw : Mute w) : Silent [⟨path, w⟩] :=
  always_cons.mpr ⟨hw, always_nil _⟩

theorem silent_naming (s : State) (k : Value) : Silent ((naming s k).map (under path)) := by
  rw [Silent, always_under]
  unfold naming
  split
  · rename_i x
    cases integerOf x <;> simp [Mute]
  · simp [Mute]
  · exact always_nil _

theorem silent_removal (path : List Element) (s : State) (k : Value) :
    Silent ((removal s k).map (under path)) := by
  rw [Silent, always_under]
  unfold removal
  split_ifs <;> simp [Mute]

theorem silent_conversions {l : List Event} (hl : Conversions l) :
    Silent (l.map (under path)) := by
  rw [Silent, always_under]
  intro ev hev
  obtain ⟨x, -, rfl⟩ := hl ev hev
  trivial

/-- Silent events keep what was asserted of the history. -/
theorem Within.silent {l : List Event} (hw : Within c d path h s) (hl : Silent l) :
    Within c d path (h ++ l) s := by
  intro hst
  obtain ⟨hn, hc, hp⟩ := hw hst.left
  refine ⟨fun ev hev => ?_, always_append.mpr ⟨hc, hl.clean⟩, hp⟩
  rcases List.mem_append.mp hev with hev | hev
  · exact hn ev hev
  · exact hl.named hev

/-- The event of a call that is reached. -/
theorem Within.reached (hw : Within c d path h s) :
    Within c d path (h ++ [⟨path, .reached s⟩]) s := by
  intro hst
  obtain ⟨hn, hc, hp⟩ := hw hst.left
  refine ⟨fun ev hev => ?_, always_append.mpr ⟨hc, always_cons.mpr ⟨trivial, always_nil _⟩⟩, hp⟩
  rcases List.mem_append.mp hev with hev | hev
  · exact hn ev hev
  · rw [List.mem_singleton.mp hev]
    exact hp.1

/-- The first error of a history. -/
theorem Within.failed (α : Type) (hw : Within c d path h s) {t : State} (hcode : t.nameCode = s.nameCode)
    (hdepth : t.nameDepth = s.nameDepth) (target : Target) (expected : LuaType) (name : UString) :
    (namesPost α c d path).raised (.loadError (typeErrorMessage t.nameCode target expected name))
      (h ++ [⟨path, .failed target expected name t⟩]) (blamed t target expected name) := by
  intro hst
  obtain ⟨hn, hc, hp, hd⟩ := hw hst.left
  refine ⟨fun ev hev => ?_, reported_failed hc target expected name t, 0, ?_, ?_⟩
  · rcases List.mem_append.mp hev with hev | hev
    · exact hn ev hev
    · rw [List.mem_singleton.mp hev]
      exact hcode.trans hp
  · rw [blamed, hcode, hp]
    exact .refl
  · rw [blamed, hdepth, hd]
    rfl

theorem Within.range (α : Type) (hw : Within c d path h s) {l : List Event} (hl : Silent l) (s' : State) :
    (namesPost α c d path).raised .constraintError (h ++ l) s' := fun hst =>
  ⟨(hw.silent hl hst).1, (hw.silent hl hst).2.1⟩

/-! ### Entering and leaving an entry -/

theorem entered_nameCode (s : State) (k : Value) :
    (entered s k).nameCode = (component k).elim s.nameCode (extend '.' s.nameCode) := by
  unfold entered
  cases component k <;> rfl

theorem entered_nameDepth (s : State) (k : Value) :
    (entered s k).nameDepth = s.nameDepth + (component k).toList.length := by
  unfold entered
  cases component k <;> rfl

/-- The component of a key is one of the additions that its naming logs. -/
theorem adding_mem_naming {k : Value} {name : UString} (hk : component k = some name) :
    ⟨[], .adding name s⟩ ∈ naming s k := by
  cases k with
  | number x =>
    cases hx : integerOf x with
    | none => simp [component, hx] at hk
    | some i =>
      obtain rfl : indexComponent i = name := by simpa [component, hx] using hk
      simp [naming, hx]
  | string str =>
    obtain rfl : str = name := by simpa [component] using hk
    simp [naming]
  | _ => simp [component] at hk

theorem undoes_of_naming {k : Value} {name : UString} (hk : component k = some name)
    (hu : Undoable (naming s k)) : Undoes s.nameCode name :=
  hu _ (adding_mem_naming hk)

theorem Within.enter {k : Value} {v : Value} {rest : List Value} (hw : Within c d path h s)
    (atCall : State) (hs : s.luaState = v :: k :: rest) :
    Within c d (path ++ [.entry k]) (h ++ (naming s k).map (under path) ++
      [⟨path, .process atCall (entered s k)⟩]) (entered s k) := by
  intro hst
  obtain ⟨hn, hc, hp, hd⟩ := hw.silent (silent_naming s k) hst.left
  have hcode : (entered s k).nameCode = pathFrom c (path ++ [.entry k]) := by
    rw [entered_nameCode, pathFrom_append, hp]; rfl
  refine ⟨fun ev hev => ?_, always_append.mpr ⟨hc, always_cons.mpr ⟨trivial, always_nil _⟩⟩,
    hcode, ?_⟩
  · rcases List.mem_append.mp hev with hev | hev
    · exact hn ev hev
    · rw [List.mem_singleton.mp hev]
      exact ⟨k, by rw [entered_luaState, hs]; rfl, hcode⟩
  · rw [entered_nameDepth, namesOf_append, hd, List.length_append, Nat.add_assoc]; rfl

/-- The path after the removal of the component of an entry. -/
theorem Within.leave {k : Value} {t : State} (hw : Within c d (path ++ [.entry k]) h t)
    (hu : ∀ name, component k = some name → Steady h → Undoes (pathFrom c path) name) :
    Within c d path (h ++ (removal t k).map (under path)) (dropped (left t k)) := by
  intro hst
  obtain ⟨hn, hc, hp, hd⟩ := hw.silent (silent_removal path t k) hst
  refine ⟨hn, hc, ?_⟩
  rw [pathFrom_append] at hp
  rw [namesOf_append, List.length_append] at hd
  cases hk : component k with
  | none =>
    rw [nameOf, hk] at hp hd
    exact ⟨by simpa [dropped, left, hk] using hp, by simpa [dropped, left, hk] using hd⟩
  | some name =>
    rw [nameOf, hk] at hp hd
    refine ⟨?_, ?_⟩
    · simp only [dropped, left, hk, Option.isSome_some, if_true, closed, hp, Option.elim_some]
      exact (hu name hk hst.left).cut
    · simp only [dropped, left, hk, Option.isSome_some, if_true, closed, hd, Option.toList_some,
        List.length_singleton]
      omega

/-- A `Load_Error` that leaves an entry finds the component of the entry on the path. -/
theorem removable_of_grown {k : Value} {t : State} {j : ℕ}
    (hu : ∀ name, component k = some name → Undoes (pathFrom c path) name)
    (hg : Grown (pathFrom c (path ++ [.entry k])) j t.nameCode)
    (hd : t.nameDepth = d + (namesOf (path ++ [.entry k])).length + j) :
    Removable t k ∧ ∃ j', Grown (pathFrom c path) j' (left t k).nameCode ∧
      (left t k).nameDepth = d + (namesOf path).length + j' := by
  rw [pathFrom_append, nameOf] at hg
  rw [namesOf_append, nameOf, List.length_append] at hd
  cases hk : component k with
  | none =>
    rw [hk] at hg hd
    refine ⟨fun h => absurd (hk ▸ h) (by simp), j, ?_, ?_⟩
    · simpa [left, hk] using hg
    · simpa [left, hk] using hd
  | some name =>
    rw [hk] at hg hd
    obtain ⟨hne, hg⟩ := (Grown.head (hu name hk) hg).cut
    simp only [Option.toList_some, List.length_singleton] at hd
    refine ⟨fun _ => ⟨hne, by omega⟩, j, ?_, ?_⟩
    · simpa [left, hk, closed] using hg
    · simp only [left, hk, Option.isSome_some, if_true, closed, hd]
      omega

/-! ### Programs keep the path -/

theorem keepsPath_read (c : Reader) : KeepsPath (Prog.read c).run := by
  intro lua n c d path h s hw
  have hdrop : ∀ {P : Prop} {t : State}, t = s ∨ P ∧ t = dropped s →
      t.nameCode = s.nameCode ∧ t.nameDepth = s.nameDepth := by
    rintro P t (rfl | ⟨-, rfl⟩) <;> exact ⟨rfl, rfl⟩
  refine wp_read _ ?_ ?_ ?_ ?_
  · intro a l s' hl hs' hst
    obtain ⟨hn, hc, hp, hd⟩ := hw.reached.silent (silent_conversions hl) hst
    exact ⟨hn, hc, (hdrop hs').1.trans hp, (hdrop hs').2.trans hd⟩
  · intro target expected name t ht
    exact hw.reached.failed _ (hdrop ht).1 (hdrop ht).2 target expected name
  · intro x l s' hl _
    refine hw.reached.range _ (fun ev hev => ?_) s'
    rcases List.mem_append.mp hev with hev | hev
    · exact silent_conversions hl ev hev
    · exact silent_single path (w := .toLongInteger x) trivial ev hev
  · exact fun hst => ⟨(hw.reached hst).1, (hw.reached hst).2.1⟩

/-- A `Load_Error` that leaves a bracket leaves its component on the path. -/
theorem raised_of_bracket {name : UString} {e : Exn} (hu : Steady h → Undoes (pathFrom c path) name)
    (he : (namesPost Unit c d (path ++ [.bracket name])).raised e h s) :
    (namesPost Unit c d path).raised e h s := by
  intro hst
  obtain ⟨hn, he⟩ := he hst
  cases e with
  | loadError m =>
    obtain ⟨hrep, j, hg, hd⟩ := he
    rw [pathFrom_append] at hg
    rw [namesOf_append, List.length_append] at hd
    exact ⟨hn, hrep, j + 1, Grown.head (hu hst) hg, by rw [hd]; simp [nameOf]; omega⟩
  | constraintError => exact ⟨hn, he⟩

/-- The path inside of a bracket. -/
theorem Within.open {name : UString} {s₁ : State} (hw : Within c d path h s)
    (hcode : s₁.nameCode = s.nameCode) (hdepth : s₁.nameDepth = s.nameDepth) :
    Within c d (path ++ [.bracket name])
      (h ++ [⟨path, .adding name s₁⟩] ++ [⟨path, .started⟩]) (opened s₁ name) := by
  intro hst
  obtain ⟨hn, hc, hp, hd⟩ := (hw.silent (silent_single path (w := .adding name s₁) trivial)).silent
    (silent_single path (w := .started) trivial) hst
  refine ⟨hn, hc, ?_, ?_⟩
  · rw [pathFrom_append, ← hp, opened, hcode]; rfl
  · rw [namesOf_append, List.length_append, ← Nat.add_assoc, ← hd, opened, hdepth]; rfl

/-- The path after a bracket. -/
theorem Within.close {name : UString} {t : State} (hw : Within c d (path ++ [.bracket name]) h t)
    (hu : Steady h → Undoes (pathFrom c path) name) : Within c d path h (dropped (closed t)) := by
  intro hst
  obtain ⟨hn, hc, hp, hd⟩ := hw hst
  rw [pathFrom_append] at hp
  rw [namesOf_append, List.length_append] at hd
  refine ⟨hn, hc, ?_, ?_⟩
  · simp only [dropped, closed, hp]
    exact (hu hst).cut
  · simp only [dropped, closed, hd, nameOf, Option.toList_some, List.length_singleton]
    omega

theorem keepsPath_bracket {name : UString} {body : Prog Unit} (hbody : KeepsPath body.run) :
    KeepsPath (Prog.bracket name body).run := by
  intro lua n c d path h s hw
  rw [wp_bracket]
  have hw := hw.reached
  refine wp_tableStart name (fun hst => ⟨(hw hst).1, (hw hst).2.1⟩) ?_ ?_ ?_
  · intro t rest v _ _ _
    exact hw.failed Unit (t := pushed s v) rfl rfl .value .table name
  · intro t u rest _ _ _ s'
    exact hw.range Unit (silent_single path (w := .adding name _) trivial) s'
  · intro t u rest _ _ _
    have hundoes : ∀ l, Steady (h ++ [⟨path, .reached s⟩] ++
        [⟨path, .adding name (pushed s (.table u))⟩] ++ [⟨path, .started⟩] ++ l) →
        Undoes (pathFrom c path) name := fun l hst => by
      rw [← (hw hst.left.left.left).2.2.1]
      exact hst.2 ⟨path, .adding name (pushed s (.table u))⟩ (by simp)
    refine wp_mono (wp_history (hbody lua n c d _ _ _ (hw.open rfl rfl))) ?_ ?_ ?_
    · rintro _ h₂ t₁ ⟨hdone, l, rfl⟩
      have hend := hdone.reached.silent
        (silent_single (path ++ [.bracket name]) (w := .ending) trivial)
      have hrem := hend.silent
        (silent_single (path ++ [.bracket name]) (w := .removing t₁) trivial)
      have hended := hrem.silent
        (silent_single (path ++ [.bracket name]) (w := .ended) trivial)
      refine wp_tableEnd ?_ ?_ ?_
      · intro _
        refine raised_of_bracket (fun hst => ?_)
          (hend.failed Unit rfl rfl .value .table [])
        exact hundoes _ hst.left.left.left
      · intro _ _ s' hst
        exact ⟨(hrem hst).1, (hrem hst).2.1⟩
      · intro _ _ _
        exact hended.close fun hst => hundoes _ hst.left.left.left.left
    · rintro e h₂ t₁ ⟨hraised, l, rfl⟩
      exact raised_of_bracket (hundoes _) hraised
    · rintro h₂ ⟨hst, l, rfl⟩
      exact hst

theorem keepsPath_iterate {p : Prog Unit} (hp : KeepsPath p.run) :
    KeepsPath (Prog.iterate p).run := by
  intro lua n c d path h s hw
  rw [wp_iterate]
  have hw := hw.reached
  refine wp_tableIterate (L := Within c d path) ?_ ?_
    (fun _ _ hL hst => ⟨(hL hst).1, (hL hst).2.1⟩) ?_ ?_
  · exact fun _ => hw.failed Unit rfl rfl .value .table []
  · exact fun _ _ _ => hw
  · exact fun _ _ _ _ _ hL _ _ => hL
  · intro h u key t rest k v hL _ _
    have hL : Within c d path h { u with luaState := v :: k :: .table t :: rest } := hL
    generalize hu : { u with luaState := v :: k :: .table t :: rest } = u' at hL ⊢
    have hstack : u'.luaState = v :: k :: .table t :: rest := by rw [← hu]
    refine wp_iterateBody hstack (fun _ s' => hL.range _ (silent_naming u' k) s') fun _ => ?_
    have hundoes : ∀ l name, component k = some name → Steady (h ++ (naming u' k).map (under path) ++
        [⟨path, .process s (entered u' k)⟩] ++ l) → Undoes (pathFrom c path) name :=
      fun l name hk hst => by
        rw [← (hL hst.left.left.left).2.2.1]
        exact undoes_of_naming hk
          (always_under.mp (always_append.mp hst.left.left.2).2)
    refine wp_mono (wp_history (hp lua n c d _ _ _ (hL.enter s hstack))) ?_ ?_ ?_
    · rintro _ h₁ t₁ ⟨hdone, l, rfl⟩
      refine ⟨fun _ _ => hdone.leave (hundoes _), fun _ _ hst => ?_, fun _ s' hst => ?_⟩
      · have hsil := hdone.silent (silent_removal path t₁ k) hst
        exact ⟨hsil.1, hsil.2.1⟩
      · have hsil := hdone.silent (silent_single path (w := .removing t₁) trivial) hst
        exact ⟨hsil.1, hsil.2.1⟩
    · rintro e h₁ t₁ ⟨hraised, l, rfl⟩
      cases e with
      | loadError m =>
        have hremove := fun hst : Steady _ =>
          let ⟨_, _, j, hg, hd⟩ := hraised hst
          removable_of_grown (j := j) (fun name hk => hundoes _ name hk hst) hg hd
        refine ⟨fun _ hst => ?_, fun hno s' hst => absurd (hremove hst.left).1 hno⟩
        obtain ⟨hn, hrep, -⟩ := hraised hst.left
        have hsil := silent_removal path t₁ k
        refine ⟨fun ev hev => ?_, ?_, (hremove hst.left).2⟩
        · rcases List.mem_append.mp hev with hev | hev
          · exact hn ev hev
          · exact hsil.named hev
        · have herr : ∀ l, Reported m t₁ l → Reported m (left t₁ k) l := fun l hl => by
            simpa [Reported] using hl
          exact herr _ (hrep.append (reported_of_clean hsil.clean m t₁))
      | constraintError => exact hraised
    · rintro h₁ ⟨hst, l, rfl⟩
      exact hst

theorem wp_namesPost_of_caught {x : Load α} (hc : ¬ Calm h) :
    wp lua n (under path) x (namesPost α c d path) h s :=
  wp_of_history (fun _ _ _ hl => absurd (always_append.mp hl.1).1 hc)
    (fun _ _ _ hl => absurd (always_append.mp hl.1).1 hc)
    fun _ hl => absurd (always_append.mp hl.1).1 hc

/-- **Bracketed programs keep the path.** -/
theorem Prog.keepsPath {A : UString → Prop} {p : Prog α} (hp : p.Bracketed A) :
    KeepsPath p.run := by
  induction p with
  | pure a => intro lua n c d path h s hw; simpa [Prog.run, namesPost] using hw
  | bind p q ihp ihq =>
    intro lua n c d path h s hw
    rw [Prog.run, wp_bind]
    exact wp_mono (ihp hp.1 lua n c d path h s hw)
      (fun a h₁ s₁ hw₁ => ihq a (hp.2 a) lua n c d path h₁ s₁ hw₁) (fun _ _ _ he => he)
      fun _ ht => ht
  | remember => intro lua n c d path h s hw; simpa [Prog.run, wp_bind, namesPost] using hw
  | keep m =>
    intro lua n c d path h s hw
    rw [Prog.run, wp_modify]
    exact hw
  | read c => exact keepsPath_read c
  | tableStart name => exact absurd hp id
  | tableEnd => exact absurd hp id
  | bracket name body ih => exact keepsPath_bracket (ih hp.2)
  | iterate process ih => exact keepsPath_iterate (ih hp)
  | handle p handler ihp ihh =>
    intro lua n c d path h s hw
    refine wp_handle (wp_mono (ihp hp.1 lua n c d path h s hw) (fun _ _ _ hd => hd) ?_
      fun _ ht => ht)
    intro e h₁ s₁ he
    cases e with
    | loadError m => exact wp_namesPost_of_caught (by simp [NotCaught])
    | constraintError => exact he
  | raise m =>
    intro lua n c d path h s hw
    rw [Prog.run, wp_raise]
    intro hst
    obtain ⟨hn, hc, hp, hd⟩ := hw hst
    exact ⟨hn, reported_of_clean hc m s, 0, hp ▸ .refl, hd⟩

end Programs

/-! ### The path of a program -/

theorem within_start (s : State) : Within s.nameCode s.nameDepth [] [] s := fun _ =>
  ⟨fun _ h => absurd h List.not_mem_nil, fun _ h => absurd h List.not_mem_nil, rfl, rfl⟩

/-- The path names the element that is open at every event of a run. -/
theorem named_of_steady {lua : Interp} {n : ℕ} {s : State} {α : Type} {A : UString → Prop}
    {p : Prog α} (hp : p.Bracketed A) (hst : Steady (p.run lua n s).log) :
    ∀ ev ∈ (p.run lua n s).log, Named s.nameCode ev := by
  have hwp := Prog.keepsPath hp lua n s.nameCode s.nameDepth [] [] s (within_start s)
  have hlog : Steady (p.run lua n s).log → ∀ ev ∈ (p.run lua n s).log, Named s.nameCode ev :=
    log_of_wp hwp (fun _ _ _ hdone hst => (hdone hst).1)
      (fun _ _ _ hraised hst => (hraised hst).1) fun _ hstop hst => (hstop hst).1
  exact hlog hst

/-- **The path is restored** and names the open element throughout, in every run in which each
addition of a component is one that the removal undoes; and only such additions are undone. -/
theorem path_restored (lua : Interp) (n : ℕ) (s : State) :
    (∀ {α : Type} {A : UString → Prop} (p : Prog α), p.Bracketed A →
      Calm (p.run lua n s).log → Undoable (p.run lua n s).log →
      (∀ ev ∈ (p.run lua n s).log, Named s.nameCode ev) ∧
        ∀ a s', (p.run lua n s).ending = .done a s' →
          s'.nameCode = s.nameCode ∧ s'.nameDepth = s.nameDepth) ∧
    ∀ name : UString, s.nameDepth < naturalLast →
      ((∃ l s', (addNameComponent name >>= fun _ => removeNameComponent) lua n s =
        ⟨l, .done () s'⟩ ∧ s'.nameCode = s.nameCode ∧ s'.nameDepth = s.nameDepth) ↔
          Undoes s.nameCode name) := by
  refine ⟨fun {α A} p hp hcalm hundo => ?_, fun name hd => ?_⟩
  · have hwp := Prog.keepsPath hp lua n s.nameCode s.nameDepth [] [] s (within_start s)
    have hst : Steady (p.run lua n s).log := ⟨hcalm, hundo⟩
    refine ⟨named_of_steady hp hst, fun a s' hrun => ?_⟩
    have hdone := wp_done hwp hrun
    rw [List.nil_append, under_nil_map] at hdone
    exact (hdone hst).2.2
  · rw [bind_run, addNameComponent_ok hd, andThen_done, removeNameComponent_run]
    by_cases hne : extend '.' s.nameCode name = []
    · simp [opened, Undoes, hne]
    · have hdepth : s.nameDepth + 1 ≠ 0 := by omega
      simp [opened, Undoes, hne, ← cutLast_extend_iff]

theorem path_restored_nested :
    (∀ ev ∈ ((Prog.iterate readNested).run nestedTables 9 (session 0)).log, Named [] ev) ∧
      ((∃ l s', (addNameComponent "a".toList >>= fun _ => removeNameComponent) nestedTables 9
        (session 0) = ⟨l, .done () s'⟩ ∧ s'.nameCode = [] ∧ s'.nameDepth = 0) ↔
          Undoes [] "a".toList) :=
  ⟨((path_restored nestedTables 9 (session 0)).1 (.iterate readNested) readNested_bracketed
      (by decide) (by decide)).1,
    (path_restored nestedTables 9 (session 0)).2 "a".toList (by decide)⟩

/-- A table with a key that holds the separator. -/
def dottedKey : Interp := .ofTables [.ofRecord [("a.b".toList, .table 1)] (by decide) (by decide)]

/-- A bracket on that key leaves a part of its name behind. -/
theorem path_not_restored :
    ∃ s', ((Prog.bracket "a.b".toList (.pure ())).run dottedKey 0 (session 0)).ending =
      .done () s' ∧ (session 0).nameCode = [] ∧ s'.nameCode = "a".toList :=
  ⟨_, rfl, rfl, by decide⟩

end LuaAdaLoad.Package.NamePath
