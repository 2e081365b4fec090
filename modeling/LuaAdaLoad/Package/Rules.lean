import LuaAdaLoad.Package.Tables

/-!
# Rules for opening, closing and traversing tables

What has to be asserted before `Table_Start`, `Table_End` and `Table_Iterate`. A rule has one
premise for each way in which the procedure can end; the traversal has an invariant `L`, asserted
whenever `Lua.Next` is about to be called, and its round a rule of its own, in which `leaving` is
what the call of `Process` has to ensure.
-/

namespace LuaAdaLoad.Package.Rules

open LuaAdaLoad.Control.Actions LuaAdaLoad.Control.Weakest LuaAdaLoad.Text.Strings
open LuaAdaLoad.Lua.Values LuaAdaLoad.Package.Base LuaAdaLoad.Package.Names
open LuaAdaLoad.Package.Readers LuaAdaLoad.Package.Tables

variable {lua : Interp} {n : ℕ} {path : List Element} {h : List Event} {s : State}
variable {Q : Post Exn State Event Unit}

/-- The state after a type error. -/
def blamed (s : State) (target : Target) (expected : LuaType) (name : UString) : State :=
  { s with errString := typeErrorMessage s.nameCode target expected name }

/-! ### `Table_Start` and `Table_End` -/

section Brackets

variable {t u : TableRef} {rest : List Value} {v : Value} {name : UString}

/-- `Table_Start` on a field that is no table leaves the field on the stack. -/
theorem tableStart_fails (hs : s.luaState = .table t :: rest)
    (hv : (lua.tables t).field (.string name) = v) (ht : v.type ≠ .table) :
    tableStart name lua n s = ⟨[⟨[], .failed .value .table name (pushed s v)⟩],
      .raised (.loadError (typeErrorMessage s.nameCode .value .table name))
        (blamed (pushed s v) .value .table name)⟩ := by
  have hget : getField (-1) name lua n s = ⟨[], .done () (pushed s v)⟩ :=
    hv ▸ getField_top_run lua n s name hs
  have htype : typeAt (pushed s v).luaState (-1) = v.type := rfl
  simp only [tableStart, bind_run, hget, andThen_done, valueTypeIs_run, htype, ht, decide_false,
    if_true, typeError_run, andThen_raised, List.nil_append]
  rfl

theorem tableStart_table (hs : s.luaState = .table t :: rest)
    (hu : (lua.tables t).field (.string name) = .table u) :
    tableStart name lua n s =
      (addNameComponent name lua n (pushed s (.table u))).andThen fun _ s' =>
        ⟨[⟨[], .started⟩], .done () s'⟩ := by
  have hget : getField (-1) name lua n s = ⟨[], .done () (pushed s (.table u))⟩ :=
    hu ▸ getField_top_run lua n s name hs
  have htype : typeAt (pushed s (.table u)).luaState (-1) = .table := rfl
  simp only [tableStart, bind_run, hget, andThen_done, valueTypeIs_run, htype, decide_true,
    Bool.true_eq_false, if_false, List.nil_append]
  rfl

/-- `Table_Start` on a table. -/
theorem tableStart_ok (hs : s.luaState = .table t :: rest)
    (hu : (lua.tables t).field (.string name) = .table u) (hd : s.nameDepth < naturalLast) :
    tableStart name lua n s = ⟨[⟨[], .adding name (pushed s (.table u))⟩, ⟨[], .started⟩],
      .done () (opened (pushed s (.table u)) name)⟩ := by
  rw [tableStart_table hs hu, addNameComponent_ok (s := pushed s (.table u)) hd]; rfl

theorem tableStart_deep (lua : Interp) (n : ℕ) (hs : s.luaState = .table t :: rest)
    (hu : (lua.tables t).field (.string name) = .table u) (hd : ¬ s.nameDepth < naturalLast) :
    ∃ s', tableStart name lua n s =
      ⟨[⟨[], .adding name (pushed s (.table u))⟩], .raised .constraintError s'⟩ := by
  obtain ⟨s', hs'⟩ := addNameComponent_fails lua n name (s := pushed s (.table u)) hd
  exact ⟨s', by rw [tableStart_table hs hu, hs']; rfl⟩

theorem tableStart_aborts (hs : typeAt s.luaState (-1) ≠ .table) :
    tableStart name lua n s = ⟨[], .aborted⟩ := by
  unfold tableStart
  rw [bind_run, getField_aborts lua n s name hs, andThen_aborted]

theorem wp_tableStart (name : UString)
    (hstop : Q.stopped h)
    (hfail : ∀ t rest v, s.luaState = .table t :: rest →
      (lua.tables t).field (.string name) = v → v.type ≠ .table →
      Q.raised (.loadError (typeErrorMessage s.nameCode .value .table name))
        (h ++ [⟨path, .failed .value .table name (pushed s v)⟩])
        (blamed (pushed s v) .value .table name))
    (hdeep : ∀ t u rest, s.luaState = .table t :: rest →
      (lua.tables t).field (.string name) = .table u → ¬ s.nameDepth < naturalLast → ∀ s',
      Q.raised .constraintError (h ++ [⟨path, .adding name (pushed s (.table u))⟩]) s')
    (hok : ∀ t u rest, s.luaState = .table t :: rest →
      (lua.tables t).field (.string name) = .table u → s.nameDepth < naturalLast →
      Q.done () (h ++ [⟨path, .adding name (pushed s (.table u))⟩] ++ [⟨path, .started⟩])
        (opened (pushed s (.table u)) name)) :
    wp lua n (under path) (tableStart name) Q h s := by
  by_cases htop : typeAt s.luaState (-1) = .table
  · obtain ⟨t, rest, hs⟩ := typeAt_top_table htop
    by_cases ht : ((lua.tables t).field (.string name)).type = .table
    · obtain ⟨u, hu⟩ := type_eq_table_iff.mp ht
      by_cases hd : s.nameDepth < naturalLast
      · rw [wp_of_run (tableStart_ok hs hu hd)]
        simpa [Post.Holds] using hok t u rest hs hu hd
      · obtain ⟨s', hs'⟩ := tableStart_deep lua n hs hu hd
        rw [wp_of_run hs']
        simpa [Post.Holds] using hdeep t u rest hs hu hd s'
    · rw [wp_of_run (tableStart_fails hs rfl ht)]
      simpa [Post.Holds] using hfail t rest _ hs rfl ht
  · rw [wp_of_run (tableStart_aborts htop)]
    simpa [Post.Holds] using hstop

/-- `Table_End` where no table is on top. -/
theorem tableEnd_fails (ht : typeAt s.luaState (-1) ≠ .table) :
    tableEnd lua n s = ⟨[⟨[], .ending⟩, ⟨[], .failed .value .table [] s⟩],
      .raised (.loadError (typeErrorMessage s.nameCode .value .table []))
        (blamed s .value .table [])⟩ := by
  unfold tableEnd
  simp [record, ht, typeError_run, blamed]

/-- `Table_End` on a table. -/
theorem tableEnd_ok (ht : typeAt s.luaState (-1) = .table) (hc : s.nameCode ≠ [])
    (hd : s.nameDepth ≠ 0) : tableEnd lua n s =
      ⟨[⟨[], .ending⟩, ⟨[], .removing s⟩, ⟨[], .ended⟩], .done () (dropped (closed s))⟩ := by
  obtain ⟨t, rest, hs⟩ := typeAt_top_table ht
  have hpop : pop 1 lua n (closed s) = ⟨[], .done () (dropped (closed s))⟩ := by
    rw [pop_one_run lua n (closed s) hs]
    simp [dropped, hs]
  simp only [tableEnd, record, bind_run, note_run, andThen_done, valueTypeIs_run, ht, decide_true,
    Bool.true_eq_false, if_false, removeNameComponent_ok hc hd, hpop, List.nil_append,
    List.cons_append]

theorem tableEnd_empty (lua : Interp) (n : ℕ) (ht : typeAt s.luaState (-1) = .table)
    (hno : ¬ (s.nameCode ≠ [] ∧ s.nameDepth ≠ 0)) : ∃ s', tableEnd lua n s =
      ⟨[⟨[], .ending⟩, ⟨[], .removing s⟩], .raised .constraintError s'⟩ := by
  obtain ⟨s', hs'⟩ := removeNameComponent_fails lua n hno
  refine ⟨s', ?_⟩
  simp only [tableEnd, record, bind_run, note_run, andThen_done, valueTypeIs_run, ht, decide_true,
    Bool.true_eq_false, if_false, hs', andThen_raised, List.nil_append, List.cons_append]

theorem wp_tableEnd
    (hfail : typeAt s.luaState (-1) ≠ .table →
      Q.raised (.loadError (typeErrorMessage s.nameCode .value .table []))
        (h ++ [⟨path, .ending⟩] ++ [⟨path, .failed .value .table [] s⟩])
        (blamed s .value .table []))
    (hempty : typeAt s.luaState (-1) = .table → ¬ (s.nameCode ≠ [] ∧ s.nameDepth ≠ 0) → ∀ s',
      Q.raised .constraintError (h ++ [⟨path, .ending⟩] ++ [⟨path, .removing s⟩]) s')
    (hok : typeAt s.luaState (-1) = .table → s.nameCode ≠ [] → s.nameDepth ≠ 0 →
      Q.done () (h ++ [⟨path, .ending⟩] ++ [⟨path, .removing s⟩] ++ [⟨path, .ended⟩])
        (dropped (closed s))) :
    wp lua n (under path) tableEnd Q h s := by
  by_cases ht : typeAt s.luaState (-1) = .table
  · by_cases hr : s.nameCode ≠ [] ∧ s.nameDepth ≠ 0
    · rw [wp_of_run (tableEnd_ok ht hr.1 hr.2)]
      simpa [Post.Holds] using hok ht hr.1 hr.2
    · obtain ⟨s', hs'⟩ := tableEnd_empty lua n ht hr
      rw [wp_of_run hs']
      simpa [Post.Holds] using hempty ht hr s'
  · rw [wp_of_run (tableEnd_fails ht)]
    simpa [Post.Holds] using hfail ht

end Brackets

/-! ### One round of a traversal -/

/-- What a call of `Process` on the entry of a key has to ensure. -/
def leaving (path : List Element) (k : Value) (Q : Post Exn State Event Unit) :
    Post Exn State Event Unit where
  done _ h t :=
    (Removable t k → t.luaState ≠ [] →
      Q.done () (h ++ (removal t k).map (under path)) (dropped (left t k))) ∧
    (Removable t k → t.luaState = [] → Q.stopped (h ++ (removal t k).map (under path))) ∧
    (¬ Removable t k → ∀ s', Q.raised .constraintError (h ++ [⟨path, .removing t⟩]) s')
  raised e h t := match e with
    | .loadError m =>
      (Removable t k → Q.raised (.loadError m) (h ++ (removal t k).map (under path)) (left t k)) ∧
      (¬ Removable t k → ∀ s', Q.raised .constraintError (h ++ [⟨path, .removing t⟩]) s')
    | .constraintError => Q.raised .constraintError h t
  stopped := Q.stopped

/-- Taking the component of a key away, if one was added. -/
theorem wp_removal {k : Value} {t : State}
    (hok : Removable t k → Q.done () (h ++ (removal t k).map (under path)) (left t k))
    (hno : ¬ Removable t k → ∀ s', Q.raised .constraintError (h ++ [⟨path, .removing t⟩]) s') :
    wp lua n (under path) (removeAdded (component k).isSome) Q h t := by
  unfold removeAdded
  by_cases hk : (component k).isSome = true
  · rw [if_pos hk]
    by_cases hr : t.nameCode ≠ [] ∧ t.nameDepth ≠ 0
    · have := hok fun _ => hr
      rw [left, if_pos hk, removal, if_pos hk] at this
      rw [wp_of_run (removeNameComponent_ok hr.1 hr.2)]
      exact this
    · obtain ⟨s', hs'⟩ := removeNameComponent_fails lua n hr
      rw [wp_of_run hs']
      simpa [Post.Holds] using hno (fun hr' => hr (hr' hk)) s'
  · rw [if_neg hk, wp_pure]
    have := hok fun hk' => absurd hk' hk
    rwa [left, if_neg hk, removal, if_neg hk, List.map_nil, List.append_nil] at this

/-- **One round**: the entry is named, `Process` is called, the name and the value are taken off. -/
theorem wp_iterateBody {atCall : State} {process : Load Unit} {v k : Value} {rest : List Value}
    (hs : s.luaState = v :: k :: rest)
    (hno : ¬ Namable s k → ∀ s',
      Q.raised .constraintError (h ++ (naming s k).map (under path)) s')
    (hok : Namable s k → wp lua n (under (path ++ [.entry k])) process (leaving path k Q)
      (h ++ (naming s k).map (under path) ++ [⟨path, .process atCall (entered s k)⟩])
      (entered s k)) :
    wp lua n (under path) (iterateBody atCall process) Q h s := by
  unfold iterateBody
  rw [wp_bind]
  rcases nameKey_run lua n hs with ⟨hn, hrun⟩ | ⟨hn, s', hrun⟩
  · rw [wp_of_run hrun]
    simp only [Post.Holds]
    rw [wp_bind]
    unfold callProcess record
    simp only [wp_bind, wp_get, wp_note, under_mk, wp_attempt, entered_luaState, hs,
      stackAt_neg_two, List.getElem?_cons_succ, List.getElem?_cons_zero, Option.getD_some,
      wp_inside]
    refine wp_mono (hok hn) ?_ ?_ fun _ hst => hst
    · rintro _ h₁ t ⟨hdone, hstop, hraise⟩
      refine wp_removal (fun hr => ?_) hraise
      rcases ht : t.luaState with _ | ⟨w, rest'⟩
      · have hpop : pop 1 lua n (left t k) = ⟨[], .aborted⟩ :=
          pop_one_nil lua n _ (by simpa using ht)
        refine (wp_of_run hpop).mpr ?_
        simpa [Post.Holds] using hstop hr ht
      · have hpop : pop 1 lua n (left t k) = ⟨[], .done () (dropped (left t k))⟩ := by
          rw [pop_one_run lua n (left t k) ((left_luaState t k).trans ht)]
          simp [dropped, ht]
        refine (wp_of_run hpop).mpr ?_
        simpa [Post.Holds] using hdone hr (by simp [ht])
    · intro e h₁ t he
      cases e with
      | loadError m =>
        obtain ⟨hre, hraise⟩ := he
        simp only [wp_bind]
        refine wp_removal (fun hr => ?_) hraise
        simpa only [wp_raise] using hre hr
      | constraintError => simpa [leaving] using he
  · rw [wp_of_run hrun]
    simpa [Post.Holds] using hno hn s'

/-! ### The traversal -/

section Next

variable {t : TableRef} {key k v : Value} {rest : List Value}

/-- `Lua.Next` at the end of a table. -/
theorem next_end (hs : s.luaState = key :: .table t :: rest)
    (hnext : (lua.tables t).next key = some none) :
    next (-2) lua n s = ⟨[], .done false { s with luaState := .table t :: rest }⟩ := by
  simp [next, stackAt_neg_two, hs, hnext, setStack]

/-- `Lua.Next` before an entry. -/
theorem next_more (hs : s.luaState = key :: .table t :: rest)
    (hnext : (lua.tables t).next key = some (some (k, v))) :
    next (-2) lua n s = ⟨[], .done true { s with luaState := v :: k :: .table t :: rest }⟩ := by
  simp [next, stackAt_neg_two, hs, hnext, setStack]

end Next

theorem wp_next {Q : Post Exn State Event Bool} (hstop : Q.stopped h)
    (hend : ∀ key t rest, s.luaState = key :: .table t :: rest →
      (lua.tables t).next key = some none → Q.done false h { s with luaState := .table t :: rest })
    (hmore : ∀ key t rest k v, s.luaState = key :: .table t :: rest →
      (lua.tables t).next key = some (some (k, v)) →
      Q.done true h { s with luaState := v :: k :: .table t :: rest }) :
    wp lua n (under path) (next (-2)) Q h s := by
  have habort : next (-2) lua n s = ⟨[], .aborted⟩ → wp lua n (under path) (next (-2)) Q h s := by
    intro hrun
    rw [wp_of_run hrun]
    simpa [Post.Holds] using hstop
  rcases hs : s.luaState with _ | ⟨key, _ | ⟨w, rest⟩⟩
  · exact habort (by simp [next, stackAt_neg_two, hs])
  · exact habort (by simp [next, stackAt_neg_two, hs])
  · cases w with
    | table t =>
      rcases hnext : (lua.tables t).next key with _ | _ | ⟨k, v⟩
      · exact habort (by simp [next, stackAt_neg_two, hs, hnext])
      · rw [wp_of_run (next_end hs hnext)]
        simpa [Post.Holds] using hend key t rest hs hnext
      · rw [wp_of_run (next_more hs hnext)]
        simpa [Post.Holds] using hmore key t rest k v hs hnext
    | _ => exact habort (by simp [next, stackAt_neg_two, hs])

/-- The loop of a traversal starts with a nil above the table. -/
theorem tableIterate_table {process : Load Unit} (ht : typeAt s.luaState (-1) = .table) :
    tableIterate process lua n s =
      loopUpTo (next (-2)) (iterateBody s process) n lua n (pushed s .nil) := by
  have hpush : pushNil lua n s = ⟨[], .done () (pushed s .nil)⟩ := by
    simp [pushNil, setStack, pushed]
  simp only [tableIterate, bind_run, valueTypeIs_run, ht, decide_true, Bool.true_eq_false,
    if_false, get_run, andThen_done, hpush, loop_run, List.nil_append]

theorem tableIterate_fails {process : Load Unit} (ht : typeAt s.luaState (-1) ≠ .table) :
    tableIterate process lua n s = ⟨[⟨[], .failed .value .table [] s⟩],
      .raised (.loadError (typeErrorMessage s.nameCode .value .table []))
        (blamed s .value .table [])⟩ := by
  simp only [tableIterate, bind_run, valueTypeIs_run, ht, decide_false, if_true, andThen_done,
    typeError_run, andThen_raised, List.nil_append]
  rfl

/-- **The traversal**: `L` is asserted whenever `Lua.Next` is about to be called. -/
theorem wp_tableIterate {process : Load Unit} {L : List Event → State → Prop}
    (hfail : typeAt s.luaState (-1) ≠ .table →
      Q.raised (.loadError (typeErrorMessage s.nameCode .value .table []))
        (h ++ [⟨path, .failed .value .table [] s⟩]) (blamed s .value .table []))
    (hstart : ∀ t rest, s.luaState = .table t :: rest → L h (pushed s .nil))
    (hstop : ∀ h u, L h u → Q.stopped h)
    (hend : ∀ h u key t rest, L h u → u.luaState = key :: .table t :: rest →
      (lua.tables t).next key = some none → Q.done () h { u with luaState := .table t :: rest })
    (hround : ∀ h u key t rest k v, L h u → u.luaState = key :: .table t :: rest →
      (lua.tables t).next key = some (some (k, v)) →
      wp lua n (under path) (iterateBody s process) ⟨fun _ => L, Q.raised, Q.stopped⟩ h
        { u with luaState := v :: k :: .table t :: rest }) :
    wp lua n (under path) (tableIterate process) Q h s := by
  by_cases ht : typeAt s.luaState (-1) = .table
  · obtain ⟨t, rest, hs⟩ := typeAt_top_table ht
    rw [wp, tableIterate_table ht]
    refine wp_loopUpTo hstop ?_ n (hstart t rest hs)
    intro h u hL
    refine wp_next (hstop h u hL) ?_ ?_
    · intro key t rest hu hnext
      simpa using hend h u key t rest hL hu hnext
    · intro key t rest k v hu hnext
      simpa using hround h u key t rest k v hL hu hnext
  · rw [wp_of_run (tableIterate_fails ht)]
    simpa [Post.Holds] using hfail ht

end LuaAdaLoad.Package.Rules
