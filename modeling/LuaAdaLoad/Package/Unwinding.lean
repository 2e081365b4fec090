import LuaAdaLoad.Package.Tolerance

/-!
# What a failed traversal leaves behind

The handler of `Table_Iterate` takes the component of the entry away and raises again. It leaves the
stack as `Process` left it: a caller that catches the error finds its table on top again only where
`Process` has itself taken key and value off the stack, and never where the error is the first.
-/

namespace LuaAdaLoad.Package.Unwinding

open LuaAdaLoad.Control.Actions LuaAdaLoad.Control.Weakest LuaAdaLoad.Text.Dotted
open LuaAdaLoad.Text.Strings LuaAdaLoad.Lua.Values LuaAdaLoad.Package.Base
open LuaAdaLoad.Package.Names LuaAdaLoad.Package.Readers LuaAdaLoad.Package.Tables
open LuaAdaLoad.Package.Rules LuaAdaLoad.Package.Rounds LuaAdaLoad.Package.Client
open LuaAdaLoad.Package.Traversal LuaAdaLoad.Package.Tolerance

/-- Stack, path and depth are as they were. -/
def Restored (s s' : State) : Prop :=
  s'.luaState = s.luaState ∧ s'.nameCode = s.nameCode ∧ s'.nameDepth = s.nameDepth

instance (s s' : State) : Decidable (Restored s s') := by unfold Restored; infer_instance

section Unwinding

variable {lua : Interp} {n : ℕ} {s u : State} {process : Load Unit} {m : UString}
variable {t : TableRef} {rest : List Value} {key : Value}

/-- The error of a call of `Process` leaves the round, if the component can be taken away. -/
theorem iterateBody_raises {atCall : State} {v : Value} (hs : s.luaState = v :: key :: rest)
    (hn : Namable s key)
    (hraise : (process lua n (entered s key)).ending = .raised (.loadError m) u)
    (hr : Removable u key) :
    (iterateBody atCall process lua n s).ending = .raised (.loadError m) (left u key) := by
  have hwp : wp lua n (under []) (iterateBody atCall process)
      ⟨fun _ _ _ => False, fun e _ s' => e = .loadError m ∧ s' = left u key, fun _ => False⟩
      [] s := by
    refine wp_iterateBody hs (fun hno => absurd hn hno) fun _ => ?_
    rw [wp_of_ending hraise]
    exact ⟨fun _ => ⟨rfl, rfl⟩, fun hno => absurd hr hno⟩
  obtain ⟨e, w, hend, rfl, rfl⟩ := wp_raises hwp (fun _ _ _ => id) fun _ => id
  exact hend

/-- A traversal in which the first call of `Process` raises. -/
theorem tableIterate_raises {v : Value} (hs : s.luaState = .table t :: rest)
    (hnext : (lua.tables t).next .nil = some (some (key, v))) (hn : Namable s key)
    (hraise : (process lua (n + 1) (entered { s with luaState := v :: key :: s.luaState }
      key)).ending = .raised (.loadError m) u) (hr : Removable u key) :
    (tableIterate process lua (n + 1) s).ending = .raised (.loadError m) (left u key) := by
  have hfirst : next (-2) lua (n + 1) (pushed s .nil) =
      ⟨[], .done true { s with luaState := v :: key :: s.luaState }⟩ := by
    rw [hs]
    exact next_more (s := pushed s .nil) (by rw [pushed, hs]) hnext
  have hnamable : Namable { s with luaState := v :: key :: s.luaState } key := by
    unfold Namable at hn ⊢
    exact hn
  have hbody : (iterateBody s process lua (n + 1)
      { s with luaState := v :: key :: s.luaState }).ending = _ :=
    iterateBody_raises rfl hnamable hraise hr
  have htop : typeAt s.luaState (-1) = .table := by rw [hs]; rfl
  rw [tableIterate_table htop, loopUpTo_succ, ending_bind (congrArg Run.ending hfirst), if_pos rfl,
    ending_bind_raised hbody]

/-- `Process` has given key and value back when it raises: they are off the stack, and of the path
there is one component more than in `s`, if the key has one. -/
structure GivesBack (s : State) (key : Value) (u : State) : Prop where
  luaState : u.luaState = s.luaState
  nameCode : (if (component key).isSome then cutLast '.' u.nameCode else u.nameCode) = s.nameCode
  nameDepth : u.nameDepth = s.nameDepth + if (component key).isSome then 1 else 0

/-- The handler restores what it needs to. -/
theorem restored_left_iff (hr : Removable u key) :
    Restored s (left u key) ↔ GivesBack s key u := by
  unfold Restored left
  constructor
  · rintro ⟨hstack, hcode, hdepth⟩
    split_ifs at hstack hcode hdepth with hkey
    · have hpos := (hr hkey).2
      have hpred : u.nameDepth - 1 = s.nameDepth := hdepth
      exact ⟨hstack, by rw [if_pos hkey]; exact hcode, by rw [if_pos hkey]; omega⟩
    · exact ⟨hstack, by rw [if_neg hkey]; exact hcode, by rw [if_neg hkey]; exact hdepth⟩
  · rintro ⟨hstack, hcode, hdepth⟩
    split_ifs at hcode hdepth ⊢ with hkey
    · exact ⟨hstack, hcode, by rw [closed, hdepth]; rfl⟩
    · exact ⟨hstack, hcode, hdepth⟩

end Unwinding

/-- **A failed traversal** leaves the loader as it found it exactly where the call of `Process` that
raised had taken key and value of its entry off the stack, and left a path that one removal restores;
where the error is the first one, and no `Load_Error` was caught before it, it never does. -/
theorem failed_traversal_restores_iff {lua : Interp} {n : ℕ} {s s' : State}
    {A : UString → Prop} {p : Prog Unit} {m : UString} {t : TableRef} {rest : List Value}
    (hp : p.Bracketed A) (hs : s.luaState = .table t :: rest)
    (hrun : (tableIterate p.run lua n s).ending = .raised (.loadError m) s') :
    (Restored s s' ↔ ∃ key u, RaisedIn lua n p.run s m key u ∧ GivesBack s key u) ∧
    (Calm (tableIterate p.run lua n s).log → ¬ Restored s s') := by
  refine ⟨?_, fun hcalm hr => ?_⟩
  · obtain ⟨key, u, hu, hremovable, rfl⟩ := tableIterate_handler hs hrun
    rw [restored_left_iff hremovable]
    constructor
    · exact fun hback => ⟨key, u, hu, hback⟩
    · rintro ⟨key', u', hu', hback⟩
      obtain ⟨rfl, rfl⟩ := raisedIn_unique hu hu'
      exact hback
  · have hlen := tableIterate_grows hp hs hrun hcalm
    rw [hr.1] at hlen
    exact absurd hlen (lt_irrefl _)

/-- Read the value of every entry as a number. -/
def readFloats : Prog Unit := .bind (.read (.ofLocal .float)) fun _ => .pure ()

/-- Read value and key as numbers, handle both errors, and raise. -/
def readTwice : Prog Unit :=
  .bind (attemptRead .float none) fun _ => .bind (attemptRead .float none) fun _ =>
    .raise "no numbers".toList

/-- The state that the traversal of a table with a string in it leaves. -/
def afterFailure : State :=
  ⟨[.string "x".toList, .table 1], 0, [], [], "x: value: not a number".toList, 0⟩

/-- The state in which `Process` is called on the entry of this table. -/
def onEntry : State :=
  ⟨[.string "t".toList, .string "x".toList, .table 1], 1, "x".toList, [], [], 0⟩

/-- The state in which the second of these processes raises: its reads have emptied the stack. -/
def afterReads : State :=
  ⟨[.table 1], 1, "x".toList, [], "x: value: not a number".toList, 0⟩

theorem readFloats_bracketed : readFloats.Bracketed fun _ => True := ⟨trivial, fun _ => trivial⟩

theorem readTwice_bracketed : readTwice.Bracketed fun _ => True :=
  have hread : (attemptRead .float none).Bracketed fun _ => True :=
    ⟨⟨trivial, fun _ => trivial⟩, fun _ => trivial⟩
  ⟨hread, fun _ => ⟨hread, fun _ => trivial⟩⟩

/-- The first read takes the value off the stack, the second one the key. -/
theorem readTwice_raises : (readTwice.run nestedTables 9 onEntry).ending =
    .raised (.loadError "no numbers".toList) afterReads := by
  have hvalue : ((attemptRead .float none).run nestedTables 9 onEntry).ending = .done none _ :=
    attemptRead_misfit none rfl (by simp) (by decide)
  have hkey : ((attemptRead .float none).run nestedTables 9
      (blamed (dropped onEntry) .value .number [])).ending = .done none _ :=
    attemptRead_misfit none rfl (by simp) (by decide)
  rw [readTwice, Prog.run, ending_bind hvalue, Prog.run]
  exact (ending_bind hkey).trans rfl

theorem failed_traversal_string : ¬ Restored (session 1) afterFailure ∧
    Restored (session 1) (left afterReads (.string "x".toList)) := by
  have htop : (session 1).luaState = [.table 1] := rfl
  have hrun : (tableIterate readFloats.run nestedTables 9 (session 1)).ending =
    .raised (.loadError "x: value: not a number".toList) afterFailure := rfl
  have hname : Namable (session 1) (.string "x".toList) := by
    change 0 < naturalLast
    decide
  have hremovable : Removable afterReads (.string "x".toList) :=
    fun _ => ⟨by decide, by decide⟩
  have hrun' : (tableIterate readTwice.run nestedTables 9 (session 1)).ending =
      .raised (.loadError "no numbers".toList) (left afterReads (.string "x".toList)) :=
    tableIterate_raises htop rfl hname readTwice_raises hremovable
  have hfaces : Faces nestedTables (pushed (session 1) .nil) (.string "x".toList) _ :=
    ⟨.nil, 1, [], .string "t".toList, rfl, rfl, rfl⟩
  have hraised : RaisedIn nestedTables 9 readTwice.run (session 1) "no numbers".toList
      (.string "x".toList) afterReads := ⟨_, _, _, .nil _, hfaces, readTwice_raises⟩
  exact ⟨(failed_traversal_restores_iff readFloats_bracketed htop hrun).2 (by decide),
    (failed_traversal_restores_iff readTwice_bracketed htop hrun').1.mpr
      ⟨_, _, hraised, ⟨rfl, by decide, by decide⟩⟩⟩

/-- The key is still on the stack when the error reaches the caller. -/
theorem failed_traversal_not_restored :
    (tableIterate readFloats.run nestedTables 9 (session 1)).ending =
      .raised (.loadError "x: value: not a number".toList) afterFailure ∧
    ¬ Restored (session 1) afterFailure :=
  ⟨rfl, by decide⟩

end LuaAdaLoad.Package.Unwinding
