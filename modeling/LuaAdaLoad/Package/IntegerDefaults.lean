import LuaAdaLoad.Package.Readers

/-!
# Integer defaults

The three conditional readers for `Long_Integer` convert their default to `Long_Float` and the
result back. Where the value looked up is nil the default comes back just if it has at most 53
significant bits; otherwise the reader gives another integer, or raises `Constraint_Error` where the
default was rounded up past `Long_Integer'Last`.
-/

namespace LuaAdaLoad.Package.IntegerDefaults

open LuaAdaLoad.Control.Actions LuaAdaLoad.Number.Floats LuaAdaLoad.Text.Strings
open LuaAdaLoad.Lua.Values LuaAdaLoad.Package.Base LuaAdaLoad.Package.Readers

/-- A call returns a value, and raises nothing. -/
def Returns {α : Type} (x : Load α) (lua : Interp) (n : ℕ) (s : State) (a : α) : Prop :=
  ∃ s', (x lua n s).ending = .done a s'

variable {lua : Interp} {n : ℕ} {s : State}

/-- The way back of a default that a reader for `Long_Float` returned. -/
theorem returns_default_iff {x : Load LongFloat} {default : LongInteger} {s' : State}
    (hx : x lua n s = ⟨[], .done (longFloat default) s'⟩) :
    Returns (x >>= toLongInteger) lua n s default ↔ FewBits default.val.natAbs := by
  have hrun : ((x >>= toLongInteger) lua n s).ending =
      (toLongInteger (longFloat default) lua n s').ending := by
    rw [bind_run, hx, andThen_done]
  unfold Returns
  rw [hrun, toLongInteger_run, ← toRanged_ofRanged_iff (by norm_num) default]
  change _ ↔ longIntegerOf (longFloat default) = some default
  rcases longIntegerOf (longFloat default) with _ | i
  · simp
  · constructor
    · rintro ⟨s'', h⟩
      exact congrArg some (Ending.done.inj h).1
    · intro h
      exact ⟨s', by rw [Option.some.inj h]⟩

theorem localConditionalFloat_nil (default : LongFloat)
    (hnil : typeAt s.luaState (-1) = .nil) :
    localConditionalFloat default lua n s =
      ⟨[], .done default { s with luaState := s.luaState.tail }⟩ := by
  rw [localConditionalFloat, localConditional_run, if_pos hnil]

theorem numberField_nil {push : Load Unit} (name : UString) (default : LongFloat)
    (hpush : push lua n s = ⟨[], .done () { s with luaState := .nil :: s.luaState }⟩) :
    numberField push name (some default) lua n s = ⟨[], .done default s⟩ := by
  rw [numberField_run lua n s name (some default) hpush]
  rfl

/-- **Integer defaults** are returned exactly if and only if they have at most 53 significant
bits. -/
theorem integerDefault_returned_iff (lua : Interp) (n : ℕ) (s : State) (default : LongInteger) :
    (typeAt s.luaState (-1) = .nil →
      (Returns (localConditionalInteger default) lua n s default ↔
        FewBits default.val.natAbs)) ∧
    (∀ t rest name, s.luaState = .table t :: rest →
      (lua.tables t).field (.string name) = .nil →
      (Returns (namedLocalConditionalInteger name default) lua n s default ↔
        FewBits default.val.natAbs)) ∧
    ∀ t rest index, s.luaState = .table t :: rest →
      (lua.tables t).field (.number (longFloat index)) = .nil →
      (Returns (indexedLocalConditionalInteger index default) lua n s default ↔
        FewBits default.val.natAbs) := by
  refine ⟨fun hnil => ?_, fun t rest name hs hnil => ?_, fun t rest index hs hnil => ?_⟩
  · exact returns_default_iff (localConditionalFloat_nil _ hnil)
  · have hpush := getField_top_run lua n s name hs
    rw [hnil] at hpush
    exact returns_default_iff (numberField_nil name _ hpush)
  · have hpush := pushIndexed_run lua n s index hs
    rw [hnil] at hpush
    exact returns_default_iff (numberField_nil _ _ hpush)

/-- A state with nil on top of the stack. -/
def nilState : State := ⟨[.nil], 0, [], [], [], 0⟩

/-- A state with an empty table on top of the stack. -/
def tableState : State := ⟨[.table 0], 0, [], [], [], 0⟩

theorem integerDefault_returned_five :
    Returns (localConditionalInteger ⟨5, by decide, by decide⟩) (Interp.ofTables []) 0 nilState
        ⟨5, by decide, by decide⟩ ∧
      Returns (namedLocalConditionalInteger ['x'] ⟨5, by decide, by decide⟩)
        (Interp.ofTables []) 0 tableState ⟨5, by decide, by decide⟩ := by
  have hfew : FewBits 5 := ⟨5, 0, by norm_num, by norm_num⟩
  constructor
  · exact ((integerDefault_returned_iff (Interp.ofTables []) 0 nilState _).1 rfl).mpr hfew
  · exact ((integerDefault_returned_iff (Interp.ofTables []) 0 tableState _).2.1 0 [] ['x'] rfl
      rfl).mpr hfew

/-- `2 ^ 53 + 1`, the smallest positive integer that is rounded. -/
def roundedDefault : LongInteger := ⟨2 ^ 53 + 1, by norm_num, by norm_num⟩

example : longIntegerOf (longFloat ⟨2 ^ 63 - 1, by norm_num, by norm_num⟩) = none := by
  decide +kernel

theorem not_fewBits_rounded : ¬ FewBits (2 ^ 53 + 1) := by
  rintro ⟨m, e, hm, h⟩
  rcases e with _ | e
  · omega
  · have heven : m * 2 ^ (e + 1) = 2 * (m * 2 ^ e) := by ring
    omega

theorem roundedDefault_not_returned :
    typeAt nilState.luaState (-1) = .nil ∧
      ¬ Returns (localConditionalInteger roundedDefault) (Interp.ofTables []) 0 nilState
        roundedDefault :=
  ⟨rfl, fun h => not_fewBits_rounded
    ((returns_default_iff (localConditionalFloat_nil _ rfl)).mp h)⟩

end LuaAdaLoad.Package.IntegerDefaults
