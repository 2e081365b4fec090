import LuaAdaLoad.Package.Names

/-!
# Reading keys, values and fields

The readers come in families: `keyRead` (the key below the top), `localRead` and `localConditional`
(the value on top), `fieldRead` (a field of the table on top, by name or by index). Every function
of the package is one of these with its own type, conversion, name and default; the overloads for
`Long_Integer` convert the result of the `Long_Float` ones, but for `Local`, which has its own body.

A failing `localRead` pops the value it was asked for; a failing `fieldRead` pops the field that it
pushed (`localRead_run`, `fieldRead_run`).
-/

namespace LuaAdaLoad.Package.Readers

open LuaAdaLoad.Control.Actions LuaAdaLoad.Number.Floats LuaAdaLoad.Text.Strings
open LuaAdaLoad.Lua.Values LuaAdaLoad.Package.Base LuaAdaLoad.Package.Names

/-! ### Types -/

/-- `Key_Type`. -/
def keyType : Load LuaType := typeOf (-2)

/-- `Key_Type_Is`. -/
def keyTypeIs (typeValue : LuaType) : Load Bool := do return (← keyType) = typeValue

/-- `Value_Type`. -/
def valueType : Load LuaType := typeOf (-1)

/-- `Value_Type_Is`. -/
def valueTypeIs (typeValue : LuaType) : Load Bool := do return (← valueType) = typeValue

/-! ### Keys -/

/-- The body shared by the overloads of `Key`. -/
def keyRead {α : Type} (expected : LuaType) (convert : Load α) : Load α := do
  if (← keyTypeIs expected) = false then
    typeError .key expected []
  else
    convert

/-- `Key` (`Long_Float`). -/
def keyFloat : Load LongFloat := keyRead .number (toNumber (-2))

/-- `Key` (`Long_Integer`). -/
def keyInteger : Load LongInteger := do
  let tempFloat ← keyFloat
  toLongInteger tempFloat

/-- `Key` (`UString_t`). -/
def keyString : Load UString := keyRead .string (toUnboundedString (-2))

/-! ### The value on top -/

/-- The body shared by the overloads of `Local`. -/
def localRead {α : Type} (expected : LuaType) (convert : Load α) : Load α := do
  if (← valueTypeIs expected) = false then
    pop 1
    typeError .value expected []
  else
    convert

/-- `Local` (`Long_Float`). -/
def localFloat : Load LongFloat := localRead .number (toNumber (-1))

/-- `Local` (`Long_Integer`). -/
def localInteger : Load LongInteger := localRead .number (toNumber (-1) >>= toLongInteger)

/-- `Local` (`UString_t`). -/
def localString : Load UString := localRead .string (toUnboundedString (-1))

/-- The body shared by two overloads of `Local_Conditional`. -/
def localConditional {α : Type} (default : α) (orLocal : Load α) : Load α := do
  if ← valueTypeIs .nil then
    pop 1
    return default
  else
    orLocal

/-- `Local_Conditional` (`Long_Float`). -/
def localConditionalFloat (default : LongFloat) : Load LongFloat :=
  localConditional default localFloat

/-- `Local_Conditional` (`Long_Integer`). -/
def localConditionalInteger (default : LongInteger) : Load LongInteger := do
  toLongInteger (← localConditionalFloat (longFloat default))

/-- `Local_Conditional` (`UString_t`). -/
def localConditionalString (default : UString) : Load UString :=
  localConditional default localString

/-! ### Fields -/

/-- `Float_From_Stack`. -/
def floatFromStack : Load LongFloat := do
  let number ← toNumber (-1)
  pop 1
  return number

/-- `String_From_Stack`. -/
def stringFromStack : Load UString := do
  let us ← toUnboundedString (-1)
  pop 1
  return us

/-- The body shared by the readers of fields: `push` pushes the field, `name` is its name in an
error, and a conditional reader has a default. -/
def fieldRead {α : Type} (push : Load Unit) (name : UString) (expected : LuaType)
    (fromStack : Load α) (default : Option α) : Load α := do
  push
  let isNil ← valueTypeIs .nil
  match isNil, default with
  | true, some d =>
    pop 1
    return d
  | _, _ =>
    if (← valueTypeIs expected) = false then
      pop 1
      typeError .value expected name
    else
      fromStack

/-- The body shared by the readers of fields for `Long_Float`. -/
def numberField (push : Load Unit) (name : UString) (default : Option LongFloat) :
    Load LongFloat :=
  fieldRead push name .number floatFromStack default

/-- The body shared by the readers of fields for `UString_t`. -/
def stringField (push : Load Unit) (name : UString) (default : Option UString) : Load UString :=
  fieldRead push name .string stringFromStack default

/-- `Named_Local` (`Long_Float`). -/
def namedLocalFloat (name : UString) : Load LongFloat :=
  numberField (getField (-1) name) name none

/-- `Named_Local` (`Long_Integer`). -/
def namedLocalInteger (name : UString) : Load LongInteger := do
  let tempFloat ← namedLocalFloat name
  toLongInteger tempFloat

/-- `Named_Local_Conditional` (`Long_Float`). -/
def namedLocalConditionalFloat (name : UString) (default : LongFloat) : Load LongFloat :=
  numberField (getField (-1) name) name (some default)

/-- `Named_Local_Conditional` (`Long_Integer`). -/
def namedLocalConditionalInteger (name : UString) (default : LongInteger) : Load LongInteger := do
  toLongInteger (← namedLocalConditionalFloat name (longFloat default))

/-- `Named_Local` (`UString_t`). -/
def namedLocalString (name : UString) : Load UString :=
  stringField (getField (-1) name) name none

/-- `Named_Local_Conditional` (`UString_t`). -/
def namedLocalConditionalString (name : UString) (default : UString) : Load UString :=
  stringField (getField (-1) name) name (some default)

/-- Push the field of an index. -/
def pushIndexed (index : LongInteger) : Load Unit := do
  pushInteger index
  getTable (-2)

/-- `Indexed_Local` (`UString_t`). -/
def indexedLocalString (index : LongInteger) : Load UString :=
  stringField (pushIndexed index) (image index.val) none

/-- `Indexed_Local` (`Long_Float`). -/
def indexedLocalFloat (index : LongInteger) : Load LongFloat :=
  numberField (pushIndexed index) (image index.val) none

/-- `Indexed_Local` (`Long_Integer`). -/
def indexedLocalInteger (index : LongInteger) : Load LongInteger := do
  let tempFloat ← indexedLocalFloat index
  toLongInteger tempFloat

/-- `Indexed_Local_Conditional` (`UString_t`). -/
def indexedLocalConditionalString (index : LongInteger) (default : UString) : Load UString :=
  stringField (pushIndexed index) (image index.val) (some default)

/-- `Indexed_Local_Conditional` (`Long_Float`). -/
def indexedLocalConditionalFloat (index : LongInteger) (default : LongFloat) : Load LongFloat :=
  numberField (pushIndexed index) (image index.val) (some default)

/-- `Indexed_Local_Conditional` (`Long_Integer`). -/
def indexedLocalConditionalInteger (index : LongInteger) (default : LongInteger) :
    Load LongInteger := do
  toLongInteger (← indexedLocalConditionalFloat index (longFloat default))

/-! ### What the families do -/

variable {α : Type} (lua : Interp) (n : ℕ) (s : State)

/-- The type at an index of the stack, as `Lua.Type_Of` gives it. -/
def typeAt (stack : List Value) (index : ℤ) : LuaType :=
  ((stackAt stack index).map Value.type).getD .none

@[simp] theorem typeAt_top (v : Value) (rest : List Value) :
    typeAt (v :: rest) (-1) = v.type := rfl

@[simp] theorem typeAt_below (v k : Value) (rest : List Value) :
    typeAt (v :: k :: rest) (-2) = k.type := rfl

theorem typeAt_top_table {stack : List Value} (h : typeAt stack (-1) = .table) :
    ∃ t rest, stack = .table t :: rest := by
  rcases stack with _ | ⟨v, rest⟩
  · exact absurd h (by decide)
  · obtain ⟨t, rfl⟩ := type_eq_table_iff.mp h
    exact ⟨t, rest, rfl⟩

@[simp] theorem keyType_run :
    keyType lua n s = ⟨[], .done (typeAt s.luaState (-2)) s⟩ := typeOf_run lua n s (-2)

@[simp] theorem valueType_run :
    valueType lua n s = ⟨[], .done (typeAt s.luaState (-1)) s⟩ := typeOf_run lua n s (-1)

@[simp] theorem keyTypeIs_run (t : LuaType) :
    keyTypeIs t lua n s = ⟨[], .done (decide (typeAt s.luaState (-2) = t)) s⟩ := by
  simp [keyTypeIs]

@[simp] theorem valueTypeIs_run (t : LuaType) :
    valueTypeIs t lua n s = ⟨[], .done (decide (typeAt s.luaState (-1) = t)) s⟩ := by
  simp [valueTypeIs]

/-- The error of a reader, raised in a state. -/
def failWith (target : Target) (expected : LuaType) (name : UString) (s : State) :
    Run Exn State Event α :=
  ⟨[⟨[], .failed target expected name s⟩],
    .raised (.loadError (typeErrorMessage s.nameCode target expected name))
      { s with errString := typeErrorMessage s.nameCode target expected name }⟩

theorem keyRead_run (expected : LuaType) (convert : Load α) :
    keyRead expected convert lua n s =
      if typeAt s.luaState (-2) = expected then convert lua n s
      else failWith .key expected [] s := by
  by_cases h : typeAt s.luaState (-2) = expected <;>
    simp [keyRead, h, typeError_run, failWith]

theorem localRead_run (expected : LuaType) (convert : Load α) :
    localRead expected convert lua n s =
      if typeAt s.luaState (-1) = expected then convert lua n s
      else if s.luaState = [] then ⟨[], .aborted⟩
      else failWith .value expected [] { s with luaState := s.luaState.tail } := by
  by_cases h : typeAt s.luaState (-1) = expected
  · simp [localRead, h]
  · rcases hs : s.luaState with _ | ⟨v, rest⟩
    · rw [hs] at h
      simp [localRead, hs, h, pop_one_nil]
    · rw [hs, typeAt_top] at h
      simp [localRead, hs, h, pop_one_run lua n s hs, typeError_run, failWith]

theorem localRead_fits {expected : LuaType} {convert : Load α}
    (h : typeAt s.luaState (-1) = expected) :
    localRead expected convert lua n s = convert lua n s := by
  rw [localRead_run, if_pos h]

theorem localRead_misfit {expected : LuaType} {convert : Load α}
    (h : typeAt s.luaState (-1) ≠ expected) (hs : s.luaState ≠ []) :
    localRead expected convert lua n s =
      failWith .value expected [] { s with luaState := s.luaState.tail } := by
  rw [localRead_run, if_neg h, if_neg hs]

theorem localConditional_run (default : α) (orLocal : Load α) :
    localConditional default orLocal lua n s =
      if typeAt s.luaState (-1) = .nil then
        ⟨[], .done default { s with luaState := s.luaState.tail }⟩
      else orLocal lua n s := by
  by_cases h : typeAt s.luaState (-1) = .nil
  · rcases hs : s.luaState with _ | ⟨v, rest⟩
    · rw [hs] at h; exact absurd h (by decide)
    · rw [hs, typeAt_top] at h
      simp [localConditional, hs, h, pop_one_run lua n s hs]
  · simp [localConditional, h]

theorem localConditional_value {default : α} {orLocal : Load α}
    (h : typeAt s.luaState (-1) ≠ .nil) :
    localConditional default orLocal lua n s = orLocal lua n s := by
  rw [localConditional_run, if_neg h]

/-- The value that a reader of fields gives for a field, `none` for a type error. -/
def fieldValue (expected : LuaType) (convert : Value → α) (default : Option α) (v : Value) :
    Option α :=
  if v = .nil ∧ default.isSome then default
  else if v.type = expected then some (convert v)
  else none

/-- A reader of fields leaves the state as it was, up to the error string. -/
theorem fieldRead_run {push : Load Unit} {name : UString} {expected : LuaType}
    {fromStack : Load α} {default : Option α} (convert : Value → α) {v : Value}
    (hpush : push lua n s = ⟨[], .done () { s with luaState := v :: s.luaState }⟩)
    (hfrom : v.type = expected → fromStack lua n { s with luaState := v :: s.luaState } =
      ⟨[], .done (convert v) s⟩) :
    fieldRead push name expected fromStack default lua n s =
      (fieldValue expected convert default v).elim (failWith .value expected name s)
        fun a => ⟨[], .done a s⟩ := by
  have hpop : pop 1 lua n { s with luaState := v :: s.luaState } = ⟨[], .done () s⟩ :=
    pop_one_run lua n _ rfl
  have hrun : ∀ rest : Bool → Load α, (push >>= fun _ => valueTypeIs .nil >>= rest) lua n s =
      rest (decide (v.type = .nil)) lua n { s with luaState := v :: s.luaState } := by
    intro rest
    rw [bind_of_done hpush rfl, List.nil_append]
    simp
  have hcheck : (valueTypeIs expected >>= fun b => if b = false then
      pop 1 >>= fun _ => typeError .value expected name else fromStack) lua n
        { s with luaState := v :: s.luaState } =
      if v.type = expected then ⟨[], .done (convert v) s⟩ else failWith .value expected name s := by
    by_cases ht : v.type = expected
    · simp [ht, hfrom ht]
    · simp [ht, hpop, typeError_run, failWith]
  unfold fieldRead fieldValue
  rw [hrun]
  rcases default with _ | d
  · by_cases hv : v.type = .nil <;> simp only [hv, decide_true, decide_false, hcheck] <;>
      split_ifs <;> simp_all
  · by_cases hv : v = .nil
    · subst hv
      simp [Value.type, hpop]
    · have hnil : v.type ≠ .nil := fun h => hv (type_eq_nil_iff.mp h)
      simp only [hnil, decide_false, hcheck, hv, false_and, if_false]
      split_ifs <;> rfl

/-! ### Fields of the table on top -/

/-- The string of a value that is one. -/
def stringOf : Value → UString
  | .string str => str
  | _ => []

theorem numberField_run {push : Load Unit} {v : Value} (name : UString)
    (default : Option LongFloat)
    (hpush : push lua n s = ⟨[], .done () { s with luaState := v :: s.luaState }⟩) :
    numberField push name default lua n s =
      (fieldValue .number (numberOf lua) default v).elim (failWith .value .number name s)
        fun a => ⟨[], .done a s⟩ := by
  refine fieldRead_run lua n s (numberOf lua) hpush fun _ => ?_
  unfold floatFromStack
  simp only [toNumber, bind_run, get_run, stackAt_neg_one, List.getElem?_cons_zero, andThen_done,
    ask_run, pure_run]
  rw [pop_one_run lua n _ rfl]
  rfl

theorem stringField_run {push : Load Unit} {v : Value} (name : UString)
    (default : Option UString)
    (hpush : push lua n s = ⟨[], .done () { s with luaState := v :: s.luaState }⟩) :
    stringField push name default lua n s =
      (fieldValue .string stringOf default v).elim (failWith .value .string name s)
        fun a => ⟨[], .done a s⟩ := by
  refine fieldRead_run lua n s stringOf hpush fun hv => ?_
  obtain ⟨str, rfl⟩ := type_eq_string_iff.mp hv
  unfold stringFromStack
  simp only [toUnboundedString, bind_run, get_run, stackAt_neg_one, List.getElem?_cons_zero,
    andThen_done, pure_run]
  rw [pop_one_run lua n _ rfl]
  rfl

theorem pushIndexed_run {t : TableRef} {rest : List Value} (index : LongInteger)
    (hs : s.luaState = .table t :: rest) : pushIndexed index lua n s = ⟨[], .done ()
      { s with luaState := (lua.tables t).field (.number (longFloat index)) :: s.luaState }⟩ := by
  simp [pushIndexed, pushInteger, setStack, getTable, stackAt_neg_two, hs]

/-- A field can only be pushed from a table. -/
theorem getField_aborts (name : UString) (hs : typeAt s.luaState (-1) ≠ .table) :
    getField (-1) name lua n s = ⟨[], .aborted⟩ := by
  rcases h : s.luaState with _ | ⟨v, rest⟩
  · simp [getField, stackAt_neg_one, h]
  · cases v <;> simp_all [getField, stackAt_neg_one, Value.type]

theorem pushIndexed_aborts (index : LongInteger) (hs : typeAt s.luaState (-1) ≠ .table) :
    pushIndexed index lua n s = ⟨[], .aborted⟩ := by
  rcases h : s.luaState with _ | ⟨v, rest⟩
  · simp [pushIndexed, pushInteger, setStack, getTable, stackAt_neg_two, h]
  · cases v <;>
      simp_all [pushIndexed, pushInteger, setStack, getTable, stackAt_neg_two, Value.type]

theorem fieldRead_aborts {push : Load Unit} {name : UString} {expected : LuaType}
    {fromStack : Load α} {default : Option α} (hpush : push lua n s = ⟨[], .aborted⟩) :
    fieldRead push name expected fromStack default lua n s = ⟨[], .aborted⟩ := by
  rw [fieldRead, bind_run, hpush, andThen_aborted]

end LuaAdaLoad.Package.Readers
