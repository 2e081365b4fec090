import LuaAdaLoad.Control.Weakest
import LuaAdaLoad.Lua.Values

/-!
# The loader's state and the calls of the Lua library

`State` is the record `State_t` of the package, with the caller's own variables beside it; the field
`Lua_State` is the stack of the interpreter, top first. The package never writes to a table, so the
tables are an environment.

A call of the Lua library outside its contract (indexing anything but a table, `lua_next` with a key
that the table does not have, popping more than there is) is an error that nothing in an Ada program
catches: the run is `aborted`. Storage is unlimited.

The log is not part of the program: no function of the package reads it. It records what the results
speak about.
-/

namespace LuaAdaLoad.Package.Base

open LuaAdaLoad.Control.Actions LuaAdaLoad.Control.Weakest LuaAdaLoad.Number.Floats
open LuaAdaLoad.Text.Strings LuaAdaLoad.Lua.Values

/-- `Integer` and `Long_Integer`. -/
abbrev AdaInteger := Ranged (-2 ^ 31) (2 ^ 31 - 1)

abbrev LongInteger := Ranged (-2 ^ 63) (2 ^ 63 - 1)

/-- `Natural'Last`. -/
def naturalLast : ℕ := 2 ^ 31 - 1

/-- `State_t`, and the variables of the caller (`memory`, as one number), which no function of the
package touches. -/
structure State where
  luaState : List Value
  nameDepth : ℕ
  nameCode : UString
  nameFile : UString
  errString : UString
  memory : ℕ

/-- The exceptions: `Load_Error` with its message, and the `Constraint_Error` of a range check. -/
inductive Exn where
  | loadError (message : UString)
  | constraintError

/-- `Target_t`. -/
inductive Target where
  | key
  | value

/-- What can be open: a call of `Process` on the entry of a key, or a bracket of `Table_Start` and
`Table_End`. -/
inductive Element where
  | entry (key : Value)
  | bracket (name : UString)

/-- What the log records, each with the state in which it happens: a client's call, a call of
`Process` (and the state in which its `Table_Iterate` was called), a component about to be added or
removed, a `Table_Start` that succeeded, a `Table_End` that is called or has succeeded, a call of
`Type_Error`, a `Load_Error` that the client caught, a number about to be converted. -/
inductive Happening where
  | reached (s : State)
  | process (entry s : State)
  | adding (name : UString) (s : State)
  | removing (s : State)
  | started
  | ending
  | ended
  | failed (target : Target) (expected : LuaType) (name : UString) (s : State)
  | caught
  | toInteger (x : LongFloat)
  | toLongInteger (x : LongFloat)

/-- A happening, and the elements that are open around it, outermost first. -/
structure Event where
  within : List Element
  what : Happening

/-- Everything that happened satisfies `P`. -/
def Always (P : Happening → Prop) (h : List Event) : Prop := ∀ ev ∈ h, P ev.what

instance (P : Happening → Prop) [DecidablePred P] (h : List Event) : Decidable (Always P h) := by
  unfold Always; infer_instance

/-- The procedures and functions of the package. -/
abbrev Load := Act Interp Exn State Event

/-- Record a happening. -/
def record (h : Happening) : Load Unit := note ⟨[], h⟩

/-- An event, seen from outside of the elements that are open around it. -/
def under (path : List Element) (ev : Event) : Event := ⟨path ++ ev.within, ev.what⟩

/-- Run an action inside an element. -/
def inside {α : Type} (e : Element) (x : Load α) : Load α := relabel (under [e]) x

/-! ### The stack of the interpreter -/

/-- The value at an index: `-1` is the top, `1` the bottom. -/
def stackAt (stack : List Value) : ℤ → Option Value
  | .negSucc k => stack[k]?
  | .ofNat k => if k = 0 then none else stack.reverse[k - 1]?

/-- Replace the value at an index. -/
def stackSet (stack : List Value) (v : Value) : ℤ → List Value
  | .negSucc k => stack.set k v
  | .ofNat k => if k = 0 then stack else (stack.reverse.set (k - 1) v).reverse

def setStack (stack : List Value) : Load Unit := modify fun s => { s with luaState := stack }

/-- `Lua.Type_Of`. -/
def typeOf (index : ℤ) : Load LuaType := do
  match stackAt (← get).luaState index with
  | some v => return v.type
  | none => return .none

/-- `Lua.Pop`. -/
def pop (n : ℕ) : Load Unit := do
  let s ← get
  if n ≤ s.luaState.length then setStack (s.luaState.drop n) else abort

/-- `Lua.Push_Nil`. -/
def pushNil : Load Unit := do setStack (.nil :: (← get).luaState)

/-- `Long_Float (n)`. -/
def longFloat (n : LongInteger) : LongFloat := ofRanged (by norm_num) n

theorem longFloat_ne_nan (n : LongInteger) : longFloat n ≠ .nan := nofun

/-- `Lua.Push_Integer`: a Lua number is a binary64 number. -/
def pushInteger (n : LongInteger) : Load Unit := do
  setStack (.number (longFloat n) :: (← get).luaState)

/-- `Lua.Get_Field`: push the field of the table at the index. -/
def getField (index : ℤ) (name : UString) : Load Unit := do
  let s ← get
  match stackAt s.luaState index with
  | some (.table t) => setStack (((← ask).tables t).field (.string name) :: s.luaState)
  | _ => abort

/-- `Lua.Get_Table`: replace the key on top by the field of the table at the index. -/
def getTable (index : ℤ) : Load Unit := do
  let s ← get
  match stackAt s.luaState index, s.luaState with
  | some (.table t), key :: rest => setStack (((← ask).tables t).field key :: rest)
  | _, _ => abort

/-- `Lua.Next (…) /= 0`: replace the key on top by the next key and value of the table at the index,
or pop it at the end of the table. -/
def next (index : ℤ) : Load Bool := do
  let s ← get
  match stackAt s.luaState index, s.luaState with
  | some (.table t), key :: rest =>
    match ((← ask).tables t).next key with
    | none => abort
    | some none => setStack rest; return false
    | some (some (k, v)) => setStack (v :: k :: rest); return true
  | _, _ => abort

/-- The number of a value as `lua_tonumber` gives it. -/
def numberOf (lua : Interp) : Value → LongFloat
  | .number x => x
  | .string s => (lua.stringNumber s).getD (.finite 0 ⟨0, 0, by norm_num, by norm_num, rfl⟩)
  | _ => .finite 0 ⟨0, 0, by norm_num, by norm_num, rfl⟩

/-- `Long_Float (Lua.To_Number (…))`. -/
def toNumber (index : ℤ) : Load LongFloat := do
  match stackAt (← get).luaState index with
  | some v => return numberOf (← ask) v
  | none => return numberOf (← ask) .nil

/-- `Lua.To_Unbounded_String`: a number is converted in its place on the stack. -/
def toUnboundedString (index : ℤ) : Load UString := do
  let s ← get
  match stackAt s.luaState index with
  | some (.string str) => return str
  | some (.number x) =>
    let str := (← ask).numberImage x
    setStack (stackSet s.luaState (.string str) index)
    return str
  | _ => abort

/-! ### Conversions of numbers -/

/-- The integer that a number is rounded to, if it is in range. -/
def integerOf (x : LongFloat) : Option AdaInteger := toRanged _ _ x

def longIntegerOf (x : LongFloat) : Option LongInteger := toRanged _ _ x

/-- `Integer (x)`. -/
def toInteger (x : LongFloat) : Load AdaInteger := do
  record (.toInteger x)
  match integerOf x with
  | some i => return i
  | none => raise .constraintError

/-- `Long_Integer (x)`. -/
def toLongInteger (x : LongFloat) : Load LongInteger := do
  record (.toLongInteger x)
  match longIntegerOf x with
  | some i => return i
  | none => raise .constraintError

/-! ### Events -/

theorem under_comp (path : List Element) (e : Element) :
    under path ∘ under [e] = under (path ++ [e]) := by
  funext ev; simp [under]

@[simp] theorem under_what (path : List Element) (ev : Event) : (under path ev).what = ev.what :=
  rfl

@[simp] theorem under_mk (path : List Element) (h : Happening) :
    under path ⟨[], h⟩ = ⟨path, h⟩ := by simp [under]

theorem under_nil_map (l : List Event) : l.map (under []) = l := by
  rw [show under [] = id by funext ev; rfl, List.map_id]

@[simp] theorem always_nil (P : Happening → Prop) : Always P [] := fun _ h =>
  absurd h List.not_mem_nil

@[simp] theorem always_cons {P : Happening → Prop} {ev : Event} {b : List Event} :
    Always P (ev :: b) ↔ P ev.what ∧ Always P b := by
  simp [Always]

@[simp] theorem always_append {P : Happening → Prop} {a b : List Event} :
    Always P (a ++ b) ↔ Always P a ∧ Always P b := by
  simp [Always, or_imp, forall_and]

@[simp] theorem always_under {P : Happening → Prop} {path : List Element} {l : List Event} :
    Always P (l.map (under path)) ↔ Always P l := by
  simp [Always]

theorem wp_inside {α : Type} {lua : Interp} {n : ℕ} {path : List Element} {e : Element}
    {x : Load α} {Q : Post Exn State Event α} :
    wp lua n (under path) (inside e x) Q = wp lua n (under (path ++ [e])) x Q := by
  rw [inside, wp_relabel, under_comp]

/-! ### What the calls do -/

variable (lua : Interp) (n : ℕ) (s : State)

theorem stackAt_neg_one (stack : List Value) : stackAt stack (-1) = stack[0]? := rfl

theorem stackAt_neg_two (stack : List Value) : stackAt stack (-2) = stack[1]? := rfl

theorem typeOf_run (index : ℤ) : typeOf index lua n s =
    ⟨[], .done (((stackAt s.luaState index).map Value.type).getD .none) s⟩ := by
  unfold typeOf
  simp only [bind_run, get_run, andThen_done, List.nil_append]
  cases stackAt s.luaState index <;> rfl

theorem pop_one_run {v : Value} {rest : List Value} (h : s.luaState = v :: rest) :
    pop 1 lua n s = ⟨[], .done () { s with luaState := rest }⟩ := by
  simp [pop, setStack, h]

theorem pop_one_nil (h : s.luaState = []) : pop 1 lua n s = ⟨[], .aborted⟩ := by
  simp [pop, h]

theorem getField_top_run {t : TableRef} {rest : List Value} (name : UString)
    (h : s.luaState = .table t :: rest) : getField (-1) name lua n s =
      ⟨[], .done () { s with luaState := (lua.tables t).field (.string name) :: s.luaState }⟩ := by
  simp [getField, setStack, stackAt_neg_one, h]

theorem toLongInteger_run (x : LongFloat) : toLongInteger x lua n s =
    ⟨[⟨[], .toLongInteger x⟩], match longIntegerOf x with
      | some i => .done i s
      | none => .raised .constraintError s⟩ := by
  unfold toLongInteger record
  simp only [bind_run, note_run, andThen_done]
  cases longIntegerOf x <;> rfl

theorem toInteger_run (x : LongFloat) : toInteger x lua n s =
    ⟨[⟨[], .toInteger x⟩], match integerOf x with
      | some i => .done i s
      | none => .raised .constraintError s⟩ := by
  unfold toInteger record
  simp only [bind_run, note_run, andThen_done]
  cases integerOf x <;> rfl

end LuaAdaLoad.Package.Base
