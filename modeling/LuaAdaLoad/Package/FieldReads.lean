import LuaAdaLoad.Package.Client

/-!
# Reading fields

The twelve readers of fields leave the loader as it was, whether they give a value or raise, so that
what a read gives is a function of the field it looks up (`fieldOutcome`), whatever was read before.
-/

namespace LuaAdaLoad.Package.FieldReads

open LuaAdaLoad.Control.Actions LuaAdaLoad.Text.Strings LuaAdaLoad.Lua.Values
open LuaAdaLoad.Package.Base LuaAdaLoad.Package.Names LuaAdaLoad.Package.Readers
open LuaAdaLoad.Package.Tables LuaAdaLoad.Package.Client

/-- What a caller sees of a call. -/
inductive Outcome (α : Type) where
  | value (a : α)
  | loadError (message : UString)
  | constraintError
  | stopped

def outcomeOf {α : Type} : Ending Exn State α → Outcome α
  | .done a _ => .value a
  | .raised (.loadError m) _ => .loadError m
  | .raised .constraintError _ => .constraintError
  | .aborted => .stopped
  | .unfinished => .stopped

/-- The state after a call, in which a caller that handles exceptions goes on. -/
def stateAfter {α : Type} (s : State) : Ending Exn State α → State
  | .done _ s' => s'
  | .raised _ s' => s'
  | .aborted => s
  | .unfinished => s

/-- The key of the field that is looked up. -/
def fieldKey : Field → Value
  | .named name => .string name
  | .indexed index => .number (longFloat index)

/-- The name of the field in an error. -/
def fieldText : Field → UString
  | .named name => name
  | .indexed index => image index.val

/-- A number, as an overload for `Long_Integer` gives it. -/
def ofLongFloat (x : LongFloat) : Outcome LongInteger :=
  match longIntegerOf x with
  | some i => .value i
  | none => .constraintError

/-- The value of a field of the type that is asked for. -/
def valueOutcome (lua : Interp) : (kind : Kind) → Value → Outcome kind.Result
  | .float, v => .value (numberOf lua v)
  | .integer, v => ofLongFloat (numberOf lua v)
  | .string, v => .value (stringOf v)

/-- The default of a conditional read. -/
def defaultOutcome : (kind : Kind) → kind.Result → Outcome kind.Result
  | .float, d => .value d
  | .integer, d => ofLongFloat (longFloat d)
  | .string, d => .value d

/-- What a read gives for a field: the value of a field of its type, the default of a conditional
read for nil, and `Load_Error` in every other case. -/
def fieldOutcome (lua : Interp) (nameCode : UString) (r : FieldRead) (v : Value) :
    Outcome r.kind.Result :=
  if v.type = r.kind.luaType then valueOutcome lua r.kind v
  else match v, r.default with
    | .nil, some d => defaultOutcome r.kind d
    | _, _ => .loadError (typeErrorMessage nameCode .value r.kind.luaType (fieldText r.field))

section Reads

variable {lua : Interp} {n : ℕ} {s : State} {t : TableRef} {rest : List Value}

/-- The same state, up to the error string. -/
def SameLoader (s s' : State) : Prop :=
  s'.luaState = s.luaState ∧ s'.nameCode = s.nameCode ∧ s'.nameDepth = s.nameDepth ∧
    s'.nameFile = s.nameFile

/-- A call that gives an outcome and leaves the loader as it was. -/
def Gives {α : Type} (s : State) (o : Outcome α) (q : Run Exn State Event α) : Prop :=
  outcomeOf q.ending = o ∧ SameLoader s (stateAfter s q.ending)

theorem sameLoader_refl (s : State) : SameLoader s s := ⟨rfl, rfl, rfl, rfl⟩

theorem gives_fieldValue {α : Type} (expected : LuaType) (name : UString) (o : Option α) :
    Gives s (o.elim (.loadError (typeErrorMessage s.nameCode .value expected name)) .value)
      (o.elim (failWith .value expected name s) fun a => ⟨[], .done a s⟩) := by
  cases o <;> exact ⟨rfl, rfl, rfl, rfl, rfl⟩

/-- The overloads for `Long_Integer` convert what the ones for `Long_Float` give. -/
theorem gives_toLongInteger {expected : LuaType} {name : UString} {x : Load LongFloat}
    {o : Option LongFloat}
    (hx : x lua n s = o.elim (failWith .value expected name s) fun a => ⟨[], .done a s⟩) :
    Gives s (o.elim (.loadError (typeErrorMessage s.nameCode .value expected name)) ofLongFloat)
      ((x >>= toLongInteger) lua n s) := by
  rw [bind_run, hx]
  cases o with
  | none => exact ⟨rfl, rfl, rfl, rfl, rfl⟩
  | some a =>
    simp only [Option.elim_some, andThen_done, toLongInteger_run, ofLongFloat]
    cases longIntegerOf a <;> exact ⟨rfl, sameLoader_refl s⟩

/-- Push the field that is looked up. -/
theorem push_run (lua : Interp) (n : ℕ) (f : Field) (hs : s.luaState = .table t :: rest) :
    (match f with
      | .named name => getField (-1) name
      | .indexed index => pushIndexed index) lua n s =
      ⟨[], .done () (pushed s ((lua.tables t).field (fieldKey f)))⟩ := by
  cases f with
  | named name => exact getField_top_run lua n s name hs
  | indexed index => exact pushIndexed_run lua n s index hs

/-- The outcome, by the type of the field. -/
theorem fieldOutcome_eq (lua : Interp) (s : State) (r : FieldRead) (v : Value) {α : Type}
    (convert : Value → α)
    (default : Option α) (f : α → Outcome r.kind.Result)
    (hv : f (convert v) = valueOutcome lua r.kind v)
    (hd : default.map f = r.default.map (defaultOutcome r.kind)) :
    (fieldValue r.kind.luaType convert default v).elim
      (.loadError (typeErrorMessage s.nameCode .value r.kind.luaType (fieldText r.field))) f =
      fieldOutcome lua s.nameCode r v := by
  have hnil : LuaType.nil ≠ r.kind.luaType := by cases r.kind <;> simp [Kind.luaType]
  unfold fieldValue fieldOutcome
  by_cases hv' : v = .nil
  · subst hv'
    have hno : ¬ Value.nil.type = r.kind.luaType := hnil
    cases hdef : r.default with
    | none =>
      obtain rfl : default = none := by simpa [hdef] using hd
      simp [hno]
    | some d =>
      obtain ⟨d', rfl, hd'⟩ : ∃ d', default = some d' ∧ f d' = defaultOutcome r.kind d := by
        simpa [hdef] using hd
      rw [if_pos ⟨rfl, rfl⟩, if_neg hno, Option.elim_some, hd']
  · simp only [hv', false_and, if_false]
    split_ifs with ht
    · exact hv
    · cases v <;> simp_all

/-- **A read of a field** gives what its field says, and leaves the loader as it was. -/
theorem fieldRead_gives (n : ℕ) (r : FieldRead) (hs : s.luaState = .table t :: rest) :
    Gives s (fieldOutcome lua s.nameCode r ((lua.tables t).field (fieldKey r.field)))
      (r.run lua n s) := by
  set v := (lua.tables t).field (fieldKey r.field) with hv
  obtain ⟨field, kind, default⟩ := r
  have hpush := push_run lua n field hs
  have hfloat : ∀ d, numberField (match field with
      | .named name => getField (-1) name
      | .indexed index => pushIndexed index) (fieldText field) d lua n s = _ := fun d =>
    numberField_run lua n s (fieldText field) d hpush
  cases kind with
  | float =>
    rw [← fieldOutcome_eq lua s ⟨field, .float, default⟩ v (numberOf lua) default
      .value rfl (by cases default <;> rfl)]
    have hgives := gives_fieldValue (s := s) .number (fieldText field)
      (fieldValue .number (numberOf lua) default v)
    rw [← hfloat default] at hgives
    cases field <;> cases default <;> exact hgives
  | integer =>
    rw [← fieldOutcome_eq lua s ⟨field, .integer, default⟩ v (numberOf lua)
      (default.map longFloat) ofLongFloat rfl (by cases default <;> rfl)]
    have hgives := gives_toLongInteger (hfloat (default.map longFloat))
    cases field <;> cases default <;> exact hgives
  | string =>
    rw [← fieldOutcome_eq lua s ⟨field, .string, default⟩ v stringOf default
      .value rfl (by cases default <;> rfl)]
    have hgives := gives_fieldValue (s := s) .string (fieldText field)
      (fieldValue .string stringOf default v)
    rw [← stringField_run lua n s (fieldText field) default hpush] at hgives
    cases field <;> cases default <;> exact hgives

end Reads

/-! ### Sequences of reads -/

/-- A read and what it gave. -/
abbrev Answer := (r : FieldRead) × Outcome r.kind.Result

/-- A caller that makes the reads one after the other and goes on after every exception: the
answers, and the state after each read. -/
def readAll (lua : Interp) (n : ℕ) (s : State) : List FieldRead → List (Answer × State)
  | [] => []
  | r :: rs =>
    let e := (r.run lua n s).ending
    (⟨r, outcomeOf e⟩, stateAfter s e) :: readAll lua n (stateAfter s e) rs

theorem readAll_gives {lua : Interp} (n : ℕ) {t : TableRef} {rest : List Value}
    (rs : List FieldRead) : ∀ {s s₀ : State}, s₀.luaState = .table t :: rest → SameLoader s₀ s →
      (readAll lua n s rs).map Prod.fst = rs.map (fun r =>
        ⟨r, fieldOutcome lua s₀.nameCode r ((lua.tables t).field (fieldKey r.field))⟩) ∧
      ∀ a ∈ readAll lua n s rs, SameLoader s₀ a.2 := by
  induction rs with
  | nil => intro s s₀ _ _; exact ⟨rfl, by simp [readAll]⟩
  | cons r rs ih =>
    intro s s₀ hs₀ hsame
    obtain ⟨ho, hstate⟩ := fieldRead_gives (s := s) n r (hsame.1.trans hs₀)
    have hnext : SameLoader s₀ (stateAfter s (r.run lua n s).ending) :=
      ⟨hstate.1.trans hsame.1, hstate.2.1.trans hsame.2.1, hstate.2.2.1.trans hsame.2.2.1,
        hstate.2.2.2.trans hsame.2.2.2⟩
    obtain ⟨hmap, hall⟩ := ih hs₀ hnext
    refine ⟨?_, ?_⟩
    · rw [readAll, List.map_cons, List.map_cons, hmap, ho, hsame.2.1]
    · intro a ha
      rcases List.mem_cons.mp ha with rfl | ha
      · exact hnext
      · exact hall a ha

/-- A table with a string. -/
def oneString : Interp := .ofTables
  [textTable]

end LuaAdaLoad.Package.FieldReads
