import LuaAdaLoad.Number.Floats
import LuaAdaLoad.Text.Strings

/-!
# Lua values and tables

Tables are referred to, not held, by values: a table may hold itself, and two fields may share one
table. No key of a table is nil or a NaN, no value is nil, no key occurs twice; the order of the
entries is the order in which `lua_next` gives them. No table has a metatable.
-/

namespace LuaAdaLoad.Lua.Values

open LuaAdaLoad.Number.Floats LuaAdaLoad.Text.Strings

/-- A Lua number, and the `Long_Float` it is converted to. -/
abbrev LongFloat := Binary64

/-- A table of the interpreter. -/
abbrev TableRef := ℕ

/-- The values of the interpreter; functions, userdata and threads are only told apart. -/
inductive Value where
  | nil
  | boolean (b : Bool)
  | lightUserData (p : ℕ)
  | number (x : LongFloat)
  | string (s : UString)
  | table (t : TableRef)
  | function (f : ℕ)
  | userData (u : ℕ)
  | thread (u : ℕ)
deriving DecidableEq

/-- `Lua.Type_t`; `none` is the type at an index that holds no value. -/
inductive LuaType where
  | none
  | nil
  | boolean
  | lightUserData
  | number
  | string
  | table
  | function
  | userData
  | thread
deriving DecidableEq

/-- The type of a value. -/
def Value.type : Value → LuaType
  | .nil => .nil
  | .boolean _ => .boolean
  | .lightUserData _ => .lightUserData
  | .number _ => .number
  | .string _ => .string
  | .table _ => .table
  | .function _ => .function
  | .userData _ => .userData
  | .thread _ => .thread

/-- `Lua.Type_Name`. -/
def typeName : LuaType → UString
  | .none => "no value".toList
  | .nil => "nil".toList
  | .boolean => "boolean".toList
  | .lightUserData => "userdata".toList
  | .number => "number".toList
  | .string => "string".toList
  | .table => "table".toList
  | .function => "function".toList
  | .userData => "userdata".toList
  | .thread => "thread".toList

/-- The entries of a table, in the order of `lua_next`. -/
structure Table where
  entries : List (Value × Value)
  keys_nodup : (entries.map Prod.fst).Nodup
  keys_valid : ∀ e ∈ entries, e.1 ≠ .nil ∧ e.1 ≠ .number .nan
  values_valid : ∀ e ∈ entries, e.2 ≠ .nil

/-- The interpreter as the package finds it: its tables, and its conversions between numbers and
strings. -/
structure Interp where
  tables : TableRef → Table
  numberImage : LongFloat → UString
  stringNumber : UString → Option LongFloat

/-- The value of a field, nil if there is none. -/
def Table.field (t : Table) (key : Value) : Value :=
  ((t.entries.find? fun e => e.1 = key).map Prod.snd).getD .nil

/-- The entry after the one with the given key, among the entries listed: `none` if no entry has
the key, `some none` if the last one has it. -/
def entryAfter (key : Value) : List (Value × Value) → Option (Option (Value × Value))
  | [] => none
  | (k, _) :: es => if k = key then some es.head? else entryAfter key es

/-- What `lua_next` finds after a key; nil comes before the first one. -/
def Table.next (t : Table) (key : Value) : Option (Option (Value × Value)) :=
  if key = .nil then some t.entries.head? else entryAfter key t.entries

/-- A table whose keys are strings. -/
def Table.ofRecord (es : List (UString × Value)) (hk : (es.map Prod.fst).Nodup)
    (hv : ∀ e ∈ es, e.2 ≠ .nil) : Table where
  entries := es.map fun e => (.string e.1, e.2)
  keys_nodup := by
    rw [List.map_map, show Prod.fst ∘ (fun e : UString × Value => (Value.string e.1, e.2)) =
      Value.string ∘ Prod.fst from rfl, ← List.map_map]
    exact hk.map fun _ _ h => by simpa using h
  keys_valid e he := by
    obtain ⟨e', -, rfl⟩ := List.mem_map.mp he
    simp
  values_valid e he := by
    obtain ⟨e', he', rfl⟩ := List.mem_map.mp he
    exact hv e' he'

/-- An interpreter that holds the tables listed, and others that are empty. -/
def Interp.ofTables (ts : List Table) : Interp where
  tables t := ts.getD t ⟨[], by simp, by simp, by simp⟩
  numberImage _ := []
  stringNumber _ := none

/-- A table with a text in the field `x`. -/
def textTable : Table := .ofRecord [("x".toList, .string "t".toList)] (by decide) (by decide)

/-! ### Types -/

theorem type_eq_table_iff {v : Value} : v.type = .table ↔ ∃ t, v = .table t := by
  cases v <;> simp [Value.type]

theorem type_eq_string_iff {v : Value} : v.type = .string ↔ ∃ s, v = .string s := by
  cases v <;> simp [Value.type]

theorem type_eq_nil_iff {v : Value} : v.type = .nil ↔ v = .nil := by
  cases v <;> simp [Value.type]

/-! ### Going through a table -/

theorem Table.next_nil (t : Table) : t.next .nil = some t.entries.head? := by simp [Table.next]

theorem entryAfter_append {k v : Value} {post : List (Value × Value)} :
    ∀ {pre : List (Value × Value)}, ((pre ++ (k, v) :: post).map Prod.fst).Nodup →
      entryAfter k (pre ++ (k, v) :: post) = some post.head?
  | [], _ => by simp [entryAfter]
  | (k', v') :: pre, h => by
    rw [List.cons_append, List.map_cons, List.nodup_cons] at h
    have hne : k' ≠ k := fun hk => h.1 (by simp [hk])
    rw [List.cons_append, entryAfter, if_neg hne, entryAfter_append h.2]

/-- `lua_next` goes through the entries in order. -/
theorem Table.next_of_entries {t : Table} {pre post : List (Value × Value)} {k v : Value}
    (h : t.entries = pre ++ (k, v) :: post) : t.next k = some post.head? := by
  have hk : k ≠ .nil := (t.keys_valid (k, v) (by rw [h]; simp)).1
  rw [Table.next, if_neg hk, h, entryAfter_append]
  rw [← h]; exact t.keys_nodup

/-- The key of the last of the entries listed, nil before the first one. -/
def lastKey (pre : List (Value × Value)) : Value := (pre.getLast?.map Prod.fst).getD .nil

@[simp] theorem lastKey_append (pre : List (Value × Value)) (k v : Value) :
    lastKey (pre ++ [(k, v)]) = k := by simp [lastKey]

theorem Table.next_lastKey {t : Table} {pre post : List (Value × Value)}
    (h : t.entries = pre ++ post) : t.next (lastKey pre) = some post.head? := by
  induction pre using List.reverseRecOn with
  | nil => rw [show lastKey [] = .nil from rfl, Table.next_nil, h, List.nil_append]
  | append_singleton pre e _ =>
    obtain ⟨k, v⟩ := e
    rw [lastKey_append]
    exact Table.next_of_entries (v := v) (h.trans (List.append_cons _ _ _).symm)

theorem entryAfter_mem {k : Value} {e : Value × Value} :
    ∀ {es : List (Value × Value)}, entryAfter k es = some (some e) → e ∈ es
  | (k', v') :: es, h => by
    rw [entryAfter] at h
    split_ifs at h with hk
    · rw [Option.some.injEq] at h
      exact List.mem_cons_of_mem _ (List.mem_of_head? h)
    · exact List.mem_cons_of_mem _ (entryAfter_mem h)

/-- What `lua_next` gives is an entry. -/
theorem Table.next_mem {t : Table} {k : Value} {e : Value × Value}
    (h : t.next k = some (some e)) : e ∈ t.entries := by
  unfold Table.next at h
  split_ifs at h
  · exact List.mem_of_head? (by simpa using h)
  · exact entryAfter_mem h

end LuaAdaLoad.Lua.Values
