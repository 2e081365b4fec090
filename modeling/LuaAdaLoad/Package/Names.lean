import LuaAdaLoad.Package.Base

/-!
# Name components and type errors

`Add_Name_Component`, `Remove_Name_Component`, `Type_Error` and the setters of the record. On the
path `Name_Code`, the two procedures are `extend` and `cutLast` of the separator `.`; the removal
calls `Index` with `From : Positive`, so it fails on an empty path.
-/

namespace LuaAdaLoad.Package.Names

open LuaAdaLoad.Control.Actions LuaAdaLoad.Text.Dotted LuaAdaLoad.Text.Strings
open LuaAdaLoad.Lua.Values LuaAdaLoad.Package.Base

/-- `Set_Lua`. -/
def setLua (stack : List Value) : Load Unit := setStack stack

/-- `Set_File`. -/
def setFile (file : UString) : Load Unit := modify fun s => { s with nameFile := file }

/-- `Add_Name_Component`. -/
def addNameComponent (name : UString) : Load Unit := do
  record (.adding name (← get))
  if (← get).nameCode.length ≠ 0 then
    modify fun s => { s with nameCode := s.nameCode ++ ".".toList }
  modify fun s => { s with nameCode := s.nameCode ++ name }
  if (← get).nameDepth < naturalLast then
    modify fun s => { s with nameDepth := s.nameDepth + 1 }
  else
    raise .constraintError

/-- `Remove_Name_Component`. -/
def removeNameComponent : Load Unit := do
  record (.removing (← get))
  let length := (← get).nameCode.length
  if length = 0 then
    raise .constraintError
  let index := indexBackward (← get).nameCode '.' length
  let dot := if index ≠ 0 then index - 1 else index
  modify fun s => { s with nameCode := head s.nameCode dot }
  if (← get).nameDepth = 0 then
    raise .constraintError
  modify fun s => { s with nameDepth := s.nameDepth - 1 }

/-- `Target_Name`. -/
def targetName : Target → UString
  | .key => "Key".toList
  | .value => "value".toList

/-- The error string that `Type_Error` builds. -/
def typeErrorMessage (nameCode : UString) (target : Target) (expected : LuaType) (name : UString) :
    UString :=
  (if nameCode.length ≠ 0 then nameCode ++ ": ".toList else []) ++
    (if name ≠ [] then name ++ ": ".toList else []) ++
      (targetName target ++ ": not a ".toList ++ typeName expected)

/-- `Type_Error`. -/
def typeError {α : Type} (target : Target) (expected : LuaType) (name : UString) : Load α := do
  let s ← get
  record (.failed target expected name s)
  modify fun s => { s with errString := typeErrorMessage s.nameCode target expected name }
  raise (.loadError (← get).errString)

/-- `Error_String`. -/
def errorString : Load UString := do return (← get).errString

/-- `Name_Code`. -/
def nameCodeOf : Load UString := do return (← get).nameCode

/-! ### What they do -/

variable (lua : Interp) (n : ℕ) (s : State)

theorem addNameComponent_run (name : UString) : addNameComponent name lua n s =
    ⟨[⟨[], .adding name s⟩],
      if s.nameDepth < naturalLast then
        .done () { s with nameCode := extend '.' s.nameCode name, nameDepth := s.nameDepth + 1 }
      else .raised .constraintError { s with nameCode := extend '.' s.nameCode name }⟩ := by
  by_cases hc : s.nameCode = [] <;> by_cases hd : s.nameDepth < naturalLast <;>
    simp [addNameComponent, record, extend, hc, hd]

theorem removeNameComponent_run : removeNameComponent lua n s =
    ⟨[⟨[], .removing s⟩],
      if s.nameCode = [] then .raised .constraintError s
      else if s.nameDepth = 0 then
        .raised .constraintError { s with nameCode := cutLast '.' s.nameCode }
      else .done () { s with nameCode := cutLast '.' s.nameCode, nameDepth := s.nameDepth - 1 }⟩ := by
  have hdot : ∀ i : ℕ, (if i ≠ 0 then i - 1 else i) = i - 1 := fun i => by split_ifs <;> omega
  by_cases hc : s.nameCode = []
  · simp [removeNameComponent, record, hc]
  · by_cases hd : s.nameDepth = 0 <;>
      simp [removeNameComponent, record, hc, hd, ← head_indexBackward, hdot]

theorem typeError_run {α : Type} (target : Target) (expected : LuaType) (name : UString) :
    (typeError target expected name : Load α) lua n s =
      ⟨[⟨[], .failed target expected name s⟩],
        .raised (.loadError (typeErrorMessage s.nameCode target expected name))
          { s with errString := typeErrorMessage s.nameCode target expected name }⟩ := by
  simp [typeError, record]

end LuaAdaLoad.Package.Names
