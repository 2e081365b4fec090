import LuaAdaLoad.Package.Traversal

/-!
# Range checks

Where a program calls `Table_End` only for a `Table_Start` that succeeded before (`openBrackets`),
`Name_Depth` counts the brackets and the named entries that are open, so that it is never 0 when it
is decremented. The range checks that are left fail on what the tables hold (`Violates`): a number
key outside of `Integer`, a number outside of `Long_Integer`, an empty path when a component is
removed, a depth of `Natural'Last`.
-/

namespace LuaAdaLoad.Package.RangeChecks

open LuaAdaLoad.Control.Actions LuaAdaLoad.Control.Weakest LuaAdaLoad.Text.Strings
open LuaAdaLoad.Lua.Values LuaAdaLoad.Package.Base LuaAdaLoad.Package.Names
open LuaAdaLoad.Package.Tables LuaAdaLoad.Package.Rules LuaAdaLoad.Package.Client
open LuaAdaLoad.Package.Traversal

/-! ### The discipline of a session -/

/-- The number of open brackets after one thing more has happened; `none` once a `Table_End` is
called that has no `Table_Start`. -/
def track (k : ℕ) : Happening → Option ℕ
  | .started => some (k + 1)
  | .ending => if 0 < k then some k else none
  | .ended => some (k - 1)
  | _ => some k

/-- The number of open brackets after a history. -/
def openBrackets (h : List Event) : Option ℕ :=
  h.foldl (fun o ev => o.bind fun k => track k ev.what) (some 0)

/-- A range check that is about to fail. -/
def Violates : Happening → Prop
  | .toInteger x => integerOf x = none
  | .toLongInteger x => longIntegerOf x = none
  | .adding _ s => ¬ s.nameDepth < naturalLast
  | .removing s => s.nameCode = []
  | _ => False

instance : DecidablePred Violates
  | .toInteger x => inferInstanceAs (Decidable (integerOf x = none))
  | .toLongInteger x => inferInstanceAs (Decidable (longIntegerOf x = none))
  | .adding _ s => inferInstanceAs (Decidable (¬ s.nameDepth < naturalLast))
  | .removing s => inferInstanceAs (Decidable (s.nameCode = []))
  | .reached _ => isFalse id
  | .process _ _ => isFalse id
  | .started => isFalse id
  | .ending => isFalse id
  | .ended => isFalse id
  | .failed _ _ _ _ => isFalse id
  | .caught => isFalse id

/-- No range check was about to fail. -/
abbrev Sound (h : List Event) : Prop := Always (fun w => ¬ Violates w) h

theorem openBrackets_snoc (h : List Event) (ev : Event) :
    openBrackets (h ++ [ev]) = (openBrackets h).bind fun k => track k ev.what := by
  simp [openBrackets]

/-- Happenings that open and close nothing. -/
theorem openBrackets_append {h l : List Event} (hl : ∀ ev ∈ l, ∀ k, track k ev.what = some k) :
    openBrackets (h ++ l) = openBrackets h := by
  induction l using List.reverseRecOn with
  | nil => rw [List.append_nil]
  | append_singleton l ev ih =>
    rw [← List.append_assoc, openBrackets_snoc,
      ih fun ev' hev' => hl ev' (List.mem_append_left _ hev')]
    cases openBrackets h with
    | none => rfl
    | some k => exact hl ev (by simp) k

/-! ### The depth -/

section Depth

variable {lua : Interp} {n : ℕ} {d : ℕ} {path : List Element} {h : List Event} {s : State}
variable {α : Type}

/-- The number of components that open entries have added. -/
def entriesIn (path : List Element) : ℕ :=
  (path.map fun
    | .entry key => (component key).toList.length
    | .bracket _ => 0).sum

theorem entriesIn_append (path : List Element) (e : Element) :
    entriesIn (path ++ [e]) = entriesIn path + entriesIn [e] := by
  simp [entriesIn]

/-- `Name_Depth` counts what is open. -/
def Counted (d : ℕ) (path : List Element) (h : List Event) (s : State) : Prop :=
  Sound h ∧ ∀ k, openBrackets h = some k → s.nameDepth = d + k + entriesIn path

/-- A range check that failed was one of those that the data can make fail. -/
def countedPost (α : Type) (d : ℕ) (path : List Element) : Post Exn State Event α where
  done _ := Counted d path
  raised e h s := match e with
    | .loadError _ => Counted d path h s
    | .constraintError => ¬ Sound h ∨ openBrackets h = none
  stopped := Sound

theorem Counted.append {l : List Event} {s' : State} (hc : Counted d path h s) (hl : Sound l)
    (ht : ∀ ev ∈ l, ∀ k, track k ev.what = some k) (hd : s'.nameDepth = s.nameDepth) :
    Counted d path (h ++ l) s' :=
  ⟨always_append.mpr ⟨hc.1, hl⟩, fun k hk => by
    rw [openBrackets_append ht] at hk
    rw [hd, hc.2 k hk]⟩

theorem Counted.snoc {w : Happening} {s' : State} (hc : Counted d path h s) (hw : ¬ Violates w)
    (ht : ∀ k, track k w = some k) (hd : s'.nameDepth = s.nameDepth) (path' : List Element) :
    Counted d path (h ++ [⟨path', w⟩]) s' :=
  hc.append (always_cons.mpr ⟨hw, always_nil _⟩)
    (fun ev hev => by rw [List.mem_singleton.mp hev]; exact ht) hd

theorem not_sound_snoc {w : Happening} (hw : Violates w) (path' : List Element) :
    ¬ Sound (h ++ [⟨path', w⟩]) := fun hs =>
  (always_cons.mp (always_append.mp hs).2).1 hw

theorem counted_read (c : Reader) (hc : Counted d path h s) :
    wp lua n (under path) (Prog.read c).run (countedPost c.Result d path) h s := by
  have hdrop : ∀ {P : Prop} {t : State}, t = s ∨ P ∧ t = dropped s → t.nameDepth = s.nameDepth := by
    rintro P t (rfl | ⟨-, rfl⟩) <;> rfl
  have hreach : Counted d path (h ++ [⟨path, .reached s⟩]) s :=
    hc.snoc (w := .reached s) id (fun _ => rfl) rfl path
  refine wp_read c ?_ ?_ ?_ hreach.1
  · intro a l s' hl hs'
    refine hreach.append (always_under.mpr fun ev hev => ?_) (fun ev hev k => ?_) (hdrop hs')
    · obtain ⟨x, hx, rfl⟩ := hl ev hev
      intro hnone
      rw [show longIntegerOf x = none from hnone] at hx
      exact absurd hx (by simp)
    · obtain ⟨ev', hev', rfl⟩ := List.mem_map.mp hev
      obtain ⟨x, -, rfl⟩ := hl ev' hev'
      rfl
  · intro target expected name t ht
    exact hreach.snoc (w := .failed target expected name t) id (fun _ => rfl) (hdrop ht) path
  · intro x l s' _ hx
    left
    rw [← List.append_assoc]
    exact not_sound_snoc (w := .toLongInteger x) hx path

theorem counted_tableStart {name : UString} {Q : Post Exn State Event Unit}
    (hc : Counted d path h s) (hstop : Q.stopped h)
    (hraised : ∀ e h s, (countedPost Unit d path).raised e h s → Q.raised e h s)
    (hdone : ∀ h s, Counted d path h s → Q.done () h s) :
    wp lua n (under path) (tableStart name) Q h s := by
  refine wp_tableStart name hstop ?_ ?_ ?_
  · intro t rest v _ _ _
    exact hraised _ _ _ (hc.snoc (w := .failed .value .table name (pushed s v)) id (fun _ => rfl)
      rfl path)
  · intro t u rest _ _ hd s'
    exact hraised .constraintError _ _
      (.inl (not_sound_snoc (w := .adding name (pushed s (.table u))) hd path))
  · intro t u rest _ _ hd
    refine hdone _ _ ⟨?_, fun k hk => ?_⟩
    · exact always_append.mpr ⟨always_append.mpr ⟨hc.1, always_cons.mpr ⟨not_not_intro hd,
        always_nil _⟩⟩, always_cons.mpr ⟨id, always_nil _⟩⟩
    · rw [openBrackets_snoc, openBrackets_snoc] at hk
      cases hk' : openBrackets h with
      | none => simp [hk'] at hk
      | some k' =>
        obtain rfl : k' + 1 = k := by simpa [hk', track] using hk
        have := hc.2 k' hk'
        simp only [opened, pushed]
        omega

theorem counted_tableEnd {path' : List Element} (hpath : entriesIn path' = entriesIn path)
    (hc : Counted d path h s) :
    wp lua n (under path') tableEnd (countedPost Unit d path) h s := by
  have hend : openBrackets (h ++ [⟨path', .ending⟩]) ≠ none →
      ∃ k, openBrackets h = some (k + 1) ∧ s.nameDepth = d + (k + 1) + entriesIn path := by
    intro hne
    rw [openBrackets_snoc] at hne
    cases hk : openBrackets h with
    | none => simp [hk] at hne
    | some k =>
      cases k with
      | zero => simp [hk, track] at hne
      | succ k => exact ⟨k, rfl, hc.2 _ hk⟩
  have hsound : Sound (h ++ [⟨path', .ending⟩]) :=
    always_append.mpr ⟨hc.1, always_cons.mpr ⟨id, always_nil _⟩⟩
  refine wp_tableEnd ?_ ?_ ?_
  · intro _
    refine ⟨always_append.mpr ⟨hsound, always_cons.mpr ⟨id, always_nil _⟩⟩, fun k hk => ?_⟩
    rw [openBrackets_append (fun ev hev _ => by rw [List.mem_singleton.mp hev]; rfl)] at hk
    obtain ⟨k', hk', hd⟩ := hend (by simp [hk])
    obtain rfl : k' + 1 = k := by simpa [openBrackets_snoc, hk', track] using hk
    exact hd
  · intro _ hno s'
    by_cases hne : s.nameCode = []
    · exact .inl (not_sound_snoc (w := .removing s) hne path')
    · right
      by_contra hk
      have hk' : openBrackets (h ++ [⟨path', .ending⟩]) ≠ none := by
        rwa [openBrackets_append (fun ev hev _ => by rw [List.mem_singleton.mp hev]; rfl)] at hk
      obtain ⟨k, -, hd⟩ := hend hk'
      exact hno ⟨hne, by omega⟩
  · intro _ hne _
    refine ⟨?_, fun k hk => ?_⟩
    · exact always_append.mpr ⟨always_append.mpr ⟨hsound, always_cons.mpr ⟨hne, always_nil _⟩⟩,
        always_cons.mpr ⟨id, always_nil _⟩⟩
    · rw [openBrackets_snoc, openBrackets_append
        (fun ev hev _ => by rw [List.mem_singleton.mp hev]; rfl)] at hk
      obtain ⟨k', hk', hd⟩ := hend fun hn => by simp [hn] at hk
      obtain rfl : k' = k := by simpa [openBrackets_snoc, hk', track] using hk
      simp only [dropped, closed]
      omega

theorem sound_naming {k : Value} (hk : Namable s k) : Sound (naming s k) := by
  cases k with
  | number x =>
    obtain ⟨hx, hd⟩ := hk
    obtain ⟨i, hi⟩ := Option.isSome_iff_exists.mp hx
    simp [naming, hi, Violates, hd]
  | string name =>
    have hd : s.nameDepth < naturalLast := hk
    simpa [naming, Violates] using hd
  | _ => simp [naming]

theorem not_sound_naming {k : Value} (hk : ¬ Namable s k) : ¬ Sound (naming s k) := by
  cases k with
  | number x =>
    cases hi : integerOf x with
    | none => simp [naming, hi, Violates]
    | some i =>
      have hd : ¬ s.nameDepth < naturalLast := by simpa [Namable, hi] using hk
      simpa [naming, hi, Violates] using hd
  | string name => simpa [naming, Violates, Namable] using hk
  | _ => exact absurd trivial hk

theorem track_naming (s : State) (k : Value) :
    ∀ ev ∈ (naming s k).map (under path), ∀ j, track j ev.what = some j := by
  intro ev hev j
  cases k with
  | number x =>
    cases hx : integerOf x with
    | none =>
      obtain rfl : ev = _ := by simpa [naming, hx] using hev
      rfl
    | some i => rcases (by simpa [naming, hx] using hev : ev = _ ∨ ev = _) with rfl | rfl <;> rfl
  | string name =>
    obtain rfl : ev = _ := by simpa [naming] using hev
    rfl
  | _ => simp [naming] at hev

/-- The depth inside of an entry. -/
theorem Counted.enter {k : Value} {atCall : State} (hc : Counted d path h s)
    (hk : Namable s k) : Counted d (path ++ [.entry k])
      (h ++ (naming s k).map (under path) ++ [⟨path, .process atCall (entered s k)⟩])
      (entered s k) := by
  have hnamed : Counted d path (h ++ (naming s k).map (under path)) s :=
    hc.append (always_under.mpr (sound_naming hk)) (track_naming s k) rfl
  have hproc : Counted d path _ s :=
    hnamed.snoc (w := .process atCall (entered s k)) id (fun _ => rfl) rfl path
  refine ⟨hproc.1, fun j hj => ?_⟩
  have := hproc.2 j hj
  rw [entriesIn_append]
  unfold entered
  cases hcomp : component k with
  | none => simpa [entriesIn, hcomp] using this
  | some name =>
    simp only [opened, entriesIn, hcomp, List.map_cons, List.map_nil, List.sum_cons,
      List.sum_nil, Option.toList_some, List.length_singleton] at this ⊢
    omega

/-- The depth after an entry. -/
theorem Counted.leave {k : Value} {t : State} (hc : Counted d (path ++ [.entry k]) h t)
    (hr : Removable t k) : Counted d path (h ++ (removal t k).map (under path)) (left t k) := by
  have hdepth : ∀ j, openBrackets h = some j → (left t k).nameDepth = d + j + entriesIn path := by
    intro j hj
    have := hc.2 j hj
    rw [entriesIn_append] at this
    unfold left
    cases hcomp : component k with
    | none => simpa [entriesIn, hcomp] using this
    | some name =>
      simp only [closed, entriesIn, hcomp, List.map_cons, List.map_nil, List.sum_cons,
        List.sum_nil, Option.toList_some, List.length_singleton, Option.isSome_some,
        if_true] at this ⊢
      omega
  unfold removal
  split_ifs with hk
  · refine ⟨always_append.mpr ⟨hc.1, by simpa [Violates] using (hr hk).1⟩, fun j hj => ?_⟩
    rw [List.map_singleton, openBrackets_append
      (fun ev hev _ => by rw [List.mem_singleton.mp hev]; rfl)] at hj
    exact hdepth j hj
  · rw [List.map_nil, List.append_nil]
    exact ⟨hc.1, hdepth⟩

/-- A component that cannot be removed: the path is empty. -/
theorem Counted.not_removable {k : Value} {t : State} (hc : Counted d (path ++ [.entry k]) h t)
    (hr : ¬ Removable t k) :
    ¬ Sound (h ++ [⟨path, .removing t⟩]) ∨ openBrackets (h ++ [⟨path, .removing t⟩]) = none := by
  obtain ⟨hk, hno⟩ := Classical.not_imp.mp hr
  by_cases hne : t.nameCode = []
  · exact .inl (not_sound_snoc (w := .removing t) hne path)
  · right
    rw [openBrackets_append (fun ev hev _ => by rw [List.mem_singleton.mp hev]; rfl)]
    by_contra hopen
    obtain ⟨j, hj⟩ := Option.ne_none_iff_exists'.mp hopen
    have hd := hc.2 j hj
    obtain ⟨name, hcomp⟩ := Option.isSome_iff_exists.mp hk
    rw [entriesIn_append] at hd
    simp only [entriesIn, hcomp, List.map_cons, List.map_nil, List.sum_cons, List.sum_nil,
      Option.toList_some, List.length_singleton] at hd
    exact hno ⟨hne, by omega⟩

theorem counted_iterate {p : Prog Unit}
    (hp : ∀ {path h s}, Counted d path h s →
      wp lua n (under path) p.run (countedPost Unit d path) h s)
    (hc : Counted d path h s) :
    wp lua n (under path) (Prog.iterate p).run (countedPost Unit d path) h s := by
  have hreach : Counted d path (h ++ [⟨path, .reached s⟩]) s :=
    hc.snoc (w := .reached s) id (fun _ => rfl) rfl path
  rw [wp_iterate]
  refine wp_tableIterate (L := Counted d path) ?_ (fun _ _ _ => hreach) (fun _ _ hL => hL.1)
    (fun _ _ _ _ _ hL _ _ => hL) ?_
  · intro _
    exact hreach.snoc (w := .failed .value .table [] s) id (fun _ => rfl) rfl path
  · intro h u key t rest k v hL _ _
    have hL : Counted d path h { u with luaState := v :: k :: .table t :: rest } := hL
    refine wp_iterateBody rfl (fun hno s' => ?_) fun hok => ?_
    · exact .inl fun hs => not_sound_naming hno (always_under.mp (always_append.mp hs).2)
    · refine wp_mono (hp (hL.enter hok)) ?_ ?_ fun _ hst => hst
      · intro _ h₁ t₁ hdone
        exact ⟨fun hr _ => hdone.leave hr, fun hr _ => (hdone.leave hr).1,
          fun hno s' => hdone.not_removable hno⟩
      · intro e h₁ t₁ hraised
        cases e with
        | loadError m => exact ⟨fun hr => hraised.leave hr, fun hno s' => hraised.not_removable hno⟩
        | constraintError => exact hraised

/-- **All programs count**, those that handle errors included. -/
theorem Prog.counted (p : Prog α) : ∀ {path h s}, Counted d path h s →
    wp lua n (under path) p.run (countedPost α d path) h s := by
  have hreach : ∀ {path h s}, Counted d path h s →
      Counted d path (h ++ [⟨path, .reached s⟩]) s := fun {path h s} hc =>
    hc.snoc (w := .reached s) id (fun _ => rfl) rfl path
  induction p with
  | pure a => intro path h s hc; simpa [Prog.run, countedPost] using hc
  | bind p q ihp ihq =>
    intro path h s hc
    rw [Prog.run, wp_bind]
    exact wp_mono (ihp hc) (fun a h₁ s₁ hc₁ => ihq a hc₁) (fun _ _ _ he => he) fun _ ht => ht
  | remember => intro path h s hc; simpa [Prog.run, wp_bind, countedPost] using hc
  | keep m =>
    intro path h s hc
    rw [Prog.run, wp_modify]
    exact hc
  | read c => intro path h s hc; exact counted_read c hc
  | tableStart name =>
    intro path h s hc
    simp only [Prog.run, wp_bind, wp_reach]
    exact counted_tableStart (hreach hc) (hreach hc).1 (fun _ _ _ he => he) fun _ _ hd => hd
  | tableEnd =>
    intro path h s hc
    simp only [Prog.run, wp_bind, wp_reach]
    exact counted_tableEnd rfl (hreach hc)
  | bracket name body ih =>
    intro path h s hc
    have hpath : entriesIn (path ++ [.bracket name]) = entriesIn path := by
      rw [entriesIn_append]; rfl
    have hsame : ∀ {h s}, Counted d (path ++ [.bracket name]) h s ↔ Counted d path h s := by
      intro h s; rw [Counted, Counted, hpath]
    rw [wp_bracket]
    refine counted_tableStart (hreach hc) (hreach hc).1 (fun _ _ _ he => he) fun h₁ s₁ hc₁ => ?_
    refine wp_mono (ih (hsame.mpr hc₁)) (fun _ h₂ s₂ hc₂ => ?_) (fun e h₂ s₂ he => ?_)
      fun _ ht => ht
    · exact counted_tableEnd hpath
        ((hsame.mp hc₂).snoc (w := .reached s₂) id (fun _ => rfl) rfl _)
    · cases e with
      | loadError m => exact hsame.mp he
      | constraintError => exact he
  | iterate process ih => intro path h s hc; exact counted_iterate ih hc
  | handle p handler ihp ihh =>
    intro path h s hc
    refine wp_handle (wp_mono (ihp hc) (fun _ _ _ hd => hd) (fun e h₁ s₁ he => ?_) fun _ ht => ht)
    cases e with
    | loadError m => exact ihh m (he.snoc (w := .caught) id (fun _ => rfl) rfl path)
    | constraintError => exact he
  | raise m => intro path h s hc; simpa [Prog.run, countedPost] using hc

end Depth

instance {α : Type} (e : Ending Exn State α) :
    Decidable (∃ s', e = .raised .constraintError s') :=
  match e with
  | .raised .constraintError s => .isTrue ⟨s, rfl⟩
  | .raised (.loadError _) _ => .isFalse fun ⟨_, h⟩ => by simp at h
  | .done _ _ => .isFalse fun ⟨_, h⟩ => by simp at h
  | .aborted => .isFalse fun ⟨_, h⟩ => by simp at h
  | .unfinished => .isFalse fun ⟨_, h⟩ => by simp at h

/-- A table with the key `1e10`. -/
def bigKey : Interp := .ofTables
  [⟨[(.number (longFloat ⟨10 ^ 10, by norm_num, by norm_num⟩), .boolean true)], by simp,
    by simp [longFloat_ne_nan], by simp⟩]

end LuaAdaLoad.Package.RangeChecks
