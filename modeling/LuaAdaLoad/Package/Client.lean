import LuaAdaLoad.Package.Rules

/-!
# Clients of the package

`Call` lists the functions and procedures of the package, `Prog` the programs that use them: they
decide on what they read, keep variables of their own, open brackets, pass programs as `Process` to
`Table_Iterate` and handle `Load_Error`. `Reads` says all that a call of a reader can do.
-/

namespace LuaAdaLoad.Package.Client

open LuaAdaLoad.Control.Actions LuaAdaLoad.Control.Weakest LuaAdaLoad.Number.Floats
open LuaAdaLoad.Text.Strings LuaAdaLoad.Lua.Values LuaAdaLoad.Package.Base
open LuaAdaLoad.Package.Names LuaAdaLoad.Package.Readers LuaAdaLoad.Package.Tables
open LuaAdaLoad.Package.Rules

/-! ### Calls -/

/-- The types of result that the overloads of a reader have. -/
inductive Kind where
  | float
  | integer
  | string
deriving DecidableEq

def Kind.Result : Kind → Type
  | .float => LongFloat
  | .integer => LongInteger
  | .string => UString

/-- The Lua type that an overload asks for. -/
def Kind.luaType : Kind → LuaType
  | .float => .number
  | .integer => .number
  | .string => .string

/-- The field that a reader looks up. -/
inductive Field where
  | named (name : UString)
  | indexed (index : LongInteger)

/-- The calls of the twelve readers of fields; the conditional ones have a default. -/
structure FieldRead where
  field : Field
  kind : Kind
  default : Option kind.Result

def FieldRead.run : (r : FieldRead) → Load r.kind.Result
  | ⟨.named name, .float, none⟩ => namedLocalFloat name
  | ⟨.named name, .integer, none⟩ => namedLocalInteger name
  | ⟨.named name, .string, none⟩ => namedLocalString name
  | ⟨.named name, .float, some d⟩ => namedLocalConditionalFloat name d
  | ⟨.named name, .integer, some d⟩ => namedLocalConditionalInteger name d
  | ⟨.named name, .string, some d⟩ => namedLocalConditionalString name d
  | ⟨.indexed index, .float, none⟩ => indexedLocalFloat index
  | ⟨.indexed index, .integer, none⟩ => indexedLocalInteger index
  | ⟨.indexed index, .string, none⟩ => indexedLocalString index
  | ⟨.indexed index, .float, some d⟩ => indexedLocalConditionalFloat index d
  | ⟨.indexed index, .integer, some d⟩ => indexedLocalConditionalInteger index d
  | ⟨.indexed index, .string, some d⟩ => indexedLocalConditionalString index d

/-- The readers. -/
inductive Reader where
  | keyType
  | valueType
  | key (kind : Kind)
  | ofLocal (kind : Kind)
  | ofLocalConditional (kind : Kind) (default : kind.Result)
  | ofField (r : FieldRead)
  | errorString
  | nameCode

def Reader.Result : Reader → Type
  | .keyType => LuaType
  | .valueType => LuaType
  | .key kind => kind.Result
  | .ofLocal kind => kind.Result
  | .ofLocalConditional kind _ => kind.Result
  | .ofField r => r.kind.Result
  | .errorString => UString
  | .nameCode => UString

def Reader.run : (c : Reader) → Load c.Result
  | .keyType => Readers.keyType
  | .valueType => Readers.valueType
  | .key .float => keyFloat
  | .key .integer => keyInteger
  | .key .string => keyString
  | .ofLocal .float => localFloat
  | .ofLocal .integer => localInteger
  | .ofLocal .string => localString
  | .ofLocalConditional .float d => localConditionalFloat d
  | .ofLocalConditional .integer d => localConditionalInteger d
  | .ofLocalConditional .string d => localConditionalString d
  | .ofField r => r.run
  | .errorString => Names.errorString
  | .nameCode => nameCodeOf

/-! ### Programs -/

/-- Programs that use the package. `bracket` is a `Table_Start` and, when its body returns, the
`Table_End` that matches it; `tableStart` and `tableEnd` are calls without a match. -/
inductive Prog : Type → Type 1 where
  | pure {α : Type} (a : α) : Prog α
  | bind {α β : Type} (p : Prog α) (q : α → Prog β) : Prog β
  | remember : Prog ℕ
  | keep (m : ℕ) : Prog Unit
  | read (c : Reader) : Prog c.Result
  | tableStart (name : UString) : Prog Unit
  | tableEnd : Prog Unit
  | bracket (name : UString) (body : Prog Unit) : Prog Unit
  | iterate (process : Prog Unit) : Prog Unit
  | handle {α : Type} (p : Prog α) (handler : UString → Prog α) : Prog α
  | raise {α : Type} (message : UString) : Prog α

/-- The state in which a session begins: a table on the stack, and no name. -/
def session (t : TableRef) : State := ⟨[.table t], 0, [], [], [], 0⟩

/-- Record that a call is reached. -/
def reach : Load Unit := do record (.reached (← get))

def Prog.run : {α : Type} → Prog α → Load α
  | _, .pure a => Pure.pure a
  | _, .bind p q => p.run >>= fun a => (q a).run
  | _, .remember => do return (← get).memory
  | _, .keep m => modify fun s => { s with memory := m }
  | _, .read c => do
    reach
    c.run
  | _, .tableStart name => do
    reach
    Tables.tableStart name
  | _, .tableEnd => do
    reach
    Tables.tableEnd
  | _, .bracket name body => do
    reach
    Tables.tableStart name
    inside (.bracket name) do
      body.run
      reach
      Tables.tableEnd
  | _, .iterate process => do
    reach
    tableIterate process.run
  | _, .handle p handler => attempt p.run fun
    | .loadError message => do
      record .caught
      (handler message).run
    | .constraintError => Control.Actions.raise .constraintError
  | _, .raise message => Control.Actions.raise (.loadError message)

/-- Every `Table_Start` and `Table_End` of the program belongs to a bracket, whose name is in `A`. -/
def Prog.Bracketed (A : UString → Prop) : {α : Type} → Prog α → Prop
  | _, .pure _ => True
  | _, .bind p q => p.Bracketed A ∧ ∀ a, (q a).Bracketed A
  | _, .remember => True
  | _, .keep _ => True
  | _, .read _ => True
  | _, .tableStart _ => False
  | _, .tableEnd => False
  | _, .bracket name body => A name ∧ body.Bracketed A
  | _, .iterate process => process.Bracketed A
  | _, .handle p handler => p.Bracketed A ∧ ∀ m, (handler m).Bracketed A
  | _, .raise _ => True

/-! ### What a reader can do -/

/-- Conversions to `Long_Integer` that succeeded. -/
def Conversions (l : List Event) : Prop :=
  ∀ ev ∈ l, ∃ x, (longIntegerOf x).isSome ∧ ev = ⟨[], .toLongInteger x⟩

/-- **All that a call of a reader can do** in the state `s`: return, where a nil on top may have been
dropped; fail, where the value on top may have been dropped before; run into a number that is no
`Long_Integer`; leave the modelled world. -/
inductive Reads (s : State) {α : Type} : Run Exn State Event α → Prop
  | value (a : α) {l : List Event} {s' : State} (hl : Conversions l)
      (hs : s' = s ∨ typeAt s.luaState (-1) = .nil ∧ s' = dropped s) : Reads s ⟨l, .done a s'⟩
  | failed (target : Target) (expected : LuaType) (name : UString) {t : State}
      (ht : t = s ∨ s.luaState ≠ [] ∧ t = dropped s) : Reads s (failWith target expected name t)
  | range (x : LongFloat) {l : List Event} {s' : State} (hl : Conversions l)
      (hx : longIntegerOf x = none) :
      Reads s ⟨l ++ [⟨[], .toLongInteger x⟩], .raised .constraintError s'⟩
  | stopped : Reads s ⟨[], .aborted⟩

section Reads

variable {lua : Interp} {n : ℕ} {s : State} {α : Type}

theorem conversions_nil : Conversions [] := fun _ h => absurd h List.not_mem_nil

theorem Conversions.snoc {l : List Event} (hl : Conversions l) {x : LongFloat}
    (hx : (longIntegerOf x).isSome) : Conversions (l ++ [⟨[], .toLongInteger x⟩]) := by
  intro ev hev
  rcases List.mem_append.mp hev with hev | hev
  · exact hl ev hev
  · exact ⟨x, hx, List.mem_singleton.mp hev⟩

theorem reads_return (a : α) : Reads s ⟨[], .done a s⟩ := .value a conversions_nil (.inl rfl)

theorem reads_of_run {x : Load α} {a : α} (hx : x lua n s = ⟨[], .done a s⟩) :
    Reads s (x lua n s) := by
  rw [hx]; exact reads_return a

/-- Converting what a reader returned. -/
theorem reads_toLongInteger {x : Load LongFloat} (hx : Reads s (x lua n s)) :
    Reads s ((x >>= toLongInteger) lua n s) := by
  rw [bind_run]
  generalize x lua n s = q at hx
  cases hx with
  | value a hl hs =>
    rw [andThen_done, toLongInteger_run]
    cases ha : longIntegerOf a with
    | none => exact .range a hl ha
    | some i => exact .value i (hl.snoc (by simp [ha])) hs
  | failed target expected name ht => exact .failed target expected name ht
  | range x hl hx => exact .range x hl hx
  | stopped => exact .stopped

theorem reads_keyRead {expected : LuaType} {convert : Load α}
    (h : typeAt s.luaState (-2) = expected → Reads s (convert lua n s)) :
    Reads s (keyRead expected convert lua n s) := by
  rw [keyRead_run]
  split_ifs with ht
  · exact h ht
  · exact .failed .key expected [] (.inl rfl)

theorem reads_localRead {expected : LuaType} {convert : Load α}
    (h : typeAt s.luaState (-1) = expected → Reads s (convert lua n s)) :
    Reads s (localRead expected convert lua n s) := by
  rw [localRead_run]
  split_ifs with ht hs
  · exact h ht
  · exact .stopped
  · exact .failed .value expected [] (.inr ⟨hs, rfl⟩)

theorem reads_localConditional {default : α} {orLocal : Load α}
    (h : Reads s (orLocal lua n s)) : Reads s (localConditional default orLocal lua n s) := by
  rw [localConditional_run]
  split_ifs with ht
  · exact .value default conversions_nil (.inr ⟨ht, rfl⟩)
  · exact h

theorem reads_fieldValue {target : Target} {expected : LuaType} {name : UString} (o : Option α) :
    Reads s (o.elim (failWith target expected name s) fun a => ⟨[], .done a s⟩) := by
  cases o with
  | none => exact .failed target expected name (.inl rfl)
  | some a => exact reads_return a

theorem reads_numberField {push : Load Unit} {name : UString} {default : Option LongFloat}
    (hpush : (∃ v, push lua n s = ⟨[], .done () (pushed s v)⟩) ∨ push lua n s = ⟨[], .aborted⟩) :
    Reads s (numberField push name default lua n s) := by
  rcases hpush with ⟨v, hv⟩ | habort
  · rw [numberField_run lua n s name default hv]
    exact reads_fieldValue _
  · rw [numberField, fieldRead_aborts lua n s habort]
    exact .stopped

theorem reads_stringField {push : Load Unit} {name : UString} {default : Option UString}
    (hpush : (∃ v, push lua n s = ⟨[], .done () (pushed s v)⟩) ∨ push lua n s = ⟨[], .aborted⟩) :
    Reads s (stringField push name default lua n s) := by
  rcases hpush with ⟨v, hv⟩ | habort
  · rw [stringField_run lua n s name default hv]
    exact reads_fieldValue _
  · rw [stringField, fieldRead_aborts lua n s habort]
    exact .stopped

theorem getField_or_aborts (name : UString) :
    (∃ v, getField (-1) name lua n s = ⟨[], .done () (pushed s v)⟩) ∨
      getField (-1) name lua n s = ⟨[], .aborted⟩ := by
  by_cases hs : typeAt s.luaState (-1) = .table
  · obtain ⟨t, rest, hs⟩ := typeAt_top_table hs
    exact .inl ⟨_, getField_top_run lua n s name hs⟩
  · exact .inr (getField_aborts lua n s name hs)

theorem pushIndexed_or_aborts (index : LongInteger) :
    (∃ v, pushIndexed index lua n s = ⟨[], .done () (pushed s v)⟩) ∨
      pushIndexed index lua n s = ⟨[], .aborted⟩ := by
  by_cases hs : typeAt s.luaState (-1) = .table
  · obtain ⟨t, rest, hs⟩ := typeAt_top_table hs
    exact .inl ⟨_, pushIndexed_run lua n s index hs⟩
  · exact .inr (pushIndexed_aborts lua n s index hs)

theorem reads_field (r : FieldRead) : Reads s (r.run lua n s) := by
  rcases r with ⟨⟨name⟩ | ⟨index⟩, kind, default⟩ <;> cases kind <;> cases default
  all_goals
    first
    | exact reads_numberField (getField_or_aborts _)
    | exact reads_stringField (getField_or_aborts _)
    | exact reads_toLongInteger (reads_numberField (getField_or_aborts _))
    | exact reads_numberField (pushIndexed_or_aborts _)
    | exact reads_stringField (pushIndexed_or_aborts _)
    | exact reads_toLongInteger (reads_numberField (pushIndexed_or_aborts _))

theorem reads_toNumber (index : ℤ) : Reads s (toNumber index lua n s) := by
  unfold toNumber
  simp only [bind_run, get_run, andThen_done, List.nil_append]
  cases stackAt s.luaState index <;> exact reads_return _

/-- A string is read without a change to the stack. -/
theorem reads_toUnboundedString {index : ℤ} (ht : typeAt s.luaState index = .string) :
    Reads s (toUnboundedString index lua n s) := by
  unfold toUnboundedString
  simp only [bind_run, get_run, andThen_done, List.nil_append]
  unfold typeAt at ht
  rcases hv : stackAt s.luaState index with _ | v
  · rw [hv] at ht; exact absurd ht (by decide)
  · rw [hv] at ht
    obtain ⟨str, rfl⟩ := type_eq_string_iff.mp ht
    exact reads_return str

/-- **The readers** do nothing else. -/
theorem Reader.reads (c : Reader) : Reads s (c.run lua n s) := by
  have hkey : Reads s (keyFloat lua n s) := reads_keyRead fun _ => reads_toNumber (-2)
  have hfloat : Reads s (localFloat lua n s) := reads_localRead fun _ => reads_toNumber (-1)
  have hstring : Reads s (localString lua n s) := reads_localRead reads_toUnboundedString
  cases c with
  | keyType => exact reads_of_run (keyType_run lua n s)
  | valueType => exact reads_of_run (valueType_run lua n s)
  | key kind =>
    cases kind with
    | float => exact hkey
    | integer => exact reads_toLongInteger hkey
    | string => exact reads_keyRead reads_toUnboundedString
  | ofLocal kind =>
    cases kind with
    | float => exact hfloat
    | integer => exact reads_localRead fun _ => reads_toLongInteger (reads_toNumber (-1))
    | string => exact hstring
  | ofLocalConditional kind default =>
    cases kind with
    | float => exact reads_localConditional hfloat
    | integer => exact reads_toLongInteger (reads_localConditional hfloat)
    | string => exact reads_localConditional hstring
  | ofField r => exact reads_field r
  | errorString => exact reads_return s.errString
  | nameCode => exact reads_return s.nameCode

end Reads

/-! ### Rules for programs -/

section Rules

variable {lua : Interp} {n : ℕ} {path : List Element} {h : List Event} {s : State} {α : Type}

theorem wp_reach {Q : Post Exn State Event Unit} : wp lua n (under path) reach Q =
    fun h s => Q.done () (h ++ [⟨path, .reached s⟩]) s := by
  funext h s
  simp only [reach, record, wp_bind, wp_get, wp_note, under_mk]

theorem wp_read (c : Reader) {Q : Post Exn State Event c.Result}
    (hvalue : ∀ a l s', Conversions l →
      (s' = s ∨ typeAt s.luaState (-1) = .nil ∧ s' = dropped s) →
      Q.done a (h ++ [⟨path, .reached s⟩] ++ l.map (under path)) s')
    (hfailed : ∀ target expected name t, (t = s ∨ s.luaState ≠ [] ∧ t = dropped s) →
      Q.raised (.loadError (typeErrorMessage t.nameCode target expected name))
        (h ++ [⟨path, .reached s⟩] ++ [⟨path, .failed target expected name t⟩])
        (blamed t target expected name))
    (hrange : ∀ x l s', Conversions l → longIntegerOf x = none →
      Q.raised .constraintError
        (h ++ [⟨path, .reached s⟩] ++ (l.map (under path) ++ [⟨path, .toLongInteger x⟩])) s')
    (hstop : Q.stopped (h ++ [⟨path, .reached s⟩])) :
    wp lua n (under path) (Prog.read c).run Q h s := by
  simp only [Prog.run, wp_bind, wp_reach]
  have hreads : Reads s (c.run lua n s) := c.reads
  unfold wp
  generalize c.run lua n s = q at hreads
  cases hreads with
  | value a hl hs => exact hvalue a _ _ hl hs
  | failed target expected name ht =>
    simpa [Post.Holds, failWith, blamed] using hfailed target expected name _ ht
  | range x hl hx => simpa [Post.Holds] using hrange x _ _ hl hx
  | stopped => simpa [Post.Holds] using hstop

theorem wp_bracket {name : UString} {body : Prog Unit} {Q : Post Exn State Event Unit} :
    wp lua n (under path) (Prog.bracket name body).run Q h s ↔
      wp lua n (under path) (tableStart name)
        ⟨fun _ => wp lua n (under (path ++ [.bracket name])) body.run
            ⟨fun _ h s => wp lua n (under (path ++ [.bracket name])) tableEnd Q
              (h ++ [⟨path ++ [.bracket name], .reached s⟩]) s, Q.raised, Q.stopped⟩,
          Q.raised, Q.stopped⟩ (h ++ [⟨path, .reached s⟩]) s := by
  simp only [Prog.run, wp_bind, wp_reach, wp_inside]

theorem wp_handle {p : Prog α} {handler : UString → Prog α} {Q : Post Exn State Event α}
    (hp : wp lua n (under path) p.run ⟨Q.done, fun e h s => match e with
      | .loadError m => wp lua n (under path) (handler m).run Q (h ++ [⟨path, .caught⟩]) s
      | .constraintError => Q.raised .constraintError h s, Q.stopped⟩ h s) :
    wp lua n (under path) (Prog.handle p handler).run Q h s := by
  rw [Prog.run, wp_attempt]
  refine wp_mono hp (fun _ _ _ hd => hd) (fun e h₁ s₁ he => ?_) fun _ hs => hs
  cases e with
  | loadError m => simpa only [record, wp_bind, wp_note, under_mk] using he
  | constraintError => simpa only [wp_raise] using he

theorem wp_iterate {p : Prog Unit} {Q : Post Exn State Event Unit} :
    wp lua n (under path) (Prog.iterate p).run Q h s ↔
      wp lua n (under path) (tableIterate p.run) Q (h ++ [⟨path, .reached s⟩]) s := by
  simp only [Prog.run, wp_bind, wp_reach]

end Rules

end LuaAdaLoad.Package.Client
