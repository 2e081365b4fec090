import LuaAdaLoad.Package.ErrorReports

/-!
# Chains of keys

The keys of ordinary tables are identifiers and integers. Entering a chain of such keys, one table
after the other, adds the name of each key to `Name_Code`; the names are plain components, so that
the chain can be read off the path again.
-/

namespace LuaAdaLoad.Package.Chains

open LuaAdaLoad.Control.Actions LuaAdaLoad.Control.Weakest LuaAdaLoad.Number.Floats
open LuaAdaLoad.Text.Dotted LuaAdaLoad.Text.Strings LuaAdaLoad.Lua.Values
open LuaAdaLoad.Package.Base LuaAdaLoad.Package.Tables LuaAdaLoad.Package.Rules
open LuaAdaLoad.Package.Client LuaAdaLoad.Package.Traversal LuaAdaLoad.Package.NamePath
open LuaAdaLoad.Package.ErrorReports

/-- A Lua identifier: a letter or an underscore, then letters, digits and underscores. -/
def isIdentifier : UString → Bool
  | [] => false
  | c :: cs => (c.isAlpha || c = '_') && cs.all fun d => d.isAlphanum || d = '_'

/-- The keys of ordinary tables. -/
inductive Key where
  | identifier (name : UString) (valid : isIdentifier name = true)
  | integer (index : AdaInteger)
deriving DecidableEq

theorem adaInteger_bounds : (-2 ^ 64 : ℤ) ≤ -2 ^ 31 ∧ (2 ^ 31 - 1 : ℤ) ≤ 2 ^ 64 := by norm_num

/-- The key as a value of Lua. -/
def Key.value : Key → Value
  | .identifier name _ => .string name
  | .integer index => .number (ofRanged adaInteger_bounds index)

/-- The component that the key adds to the path. -/
def Key.name : Key → UString
  | .identifier name _ => name
  | .integer index => indexComponent index

/-- The chain is entered from the state `s`, and the state inside is the last argument. A key is
entered by a round of `Table_Iterate`, up to its call of `Process`, or by a `Table_Start`; either
begins with the path that the chain had so far. -/
inductive Enters (lua : Interp) (s : State) : List Key → State → Prop
  | start : Enters lua s [] s
  | iterate {keys : List Key} {t u w atCall : State} (key : Key) {v : Value} {rest : List Value}
      (process : Load Unit) (n : ℕ) (inner : Enters lua s keys t) (path : u.nameCode = t.nameCode)
      (entry : u.luaState = v :: key.value :: rest)
      (called : ⟨[], .process atCall w⟩ ∈ (iterateBody atCall process lua n u).log) :
      Enters lua s (keys ++ [key]) w
  | bracket {keys : List Key} {t u w : State} (name : UString) (valid : isIdentifier name = true)
      (n : ℕ) (inner : Enters lua s keys t) (path : u.nameCode = t.nameCode)
      (opens : (tableStart name lua n u).ending = .done () w) :
      Enters lua s (keys ++ [.identifier name valid]) w

/-! ### The names of keys -/

theorem isIdentifier_chars {name : UString} (h : isIdentifier name = true) {c : Char}
    (hc : c ∈ name) : c.isAlphanum = true ∨ c = '_' := by
  cases name with
  | nil => exact absurd hc List.not_mem_nil
  | cons d ds =>
    simp only [isIdentifier, Bool.and_eq_true, Bool.or_eq_true, decide_eq_true_eq,
      List.all_eq_true] at h
    rcases List.mem_cons.mp hc with rfl | hc
    · exact h.1.imp_left fun halpha => by simp [Char.isAlphanum, halpha]
    · exact h.2 c hc

theorem bracket_notMem_identifier {name : UString} (h : isIdentifier name = true) :
    '[' ∉ name := fun hc => by
  rcases isIdentifier_chars h hc with hc | hc
  · exact absurd hc (by decide)
  · exact absurd hc (by decide)

/-- Identifiers and bracketed images are plain components. -/
theorem plain_name (key : Key) : Plain '.' key.name := by
  cases key with
  | identifier name valid =>
    refine ⟨fun hnil => ?_, fun hdot => ?_⟩
    · rw [Key.name] at hnil
      rw [hnil] at valid
      exact absurd valid (by decide)
    · rcases isIdentifier_chars valid hdot with hc | hc
      · exact absurd hc (by decide)
      · exact absurd hc (by decide)
  | integer index => exact plain_indexComponent index

theorem indexComponent_injective : Function.Injective indexComponent := by
  intro i j h
  have himage := List.append_cancel_left (List.append_cancel_right h)
  have hval := trimLeft_image_injective himage
  cases i
  cases j
  simpa using hval

/-- **No two keys have one name.** -/
theorem name_injective : Function.Injective Key.name := by
  have hmixed : ∀ {name : UString} {index : AdaInteger}, isIdentifier name = true →
      name ≠ indexComponent index := fun valid heq =>
    bracket_notMem_identifier valid (heq ▸ by simp [indexComponent])
  intro a b h
  cases a with
  | identifier name valid =>
    cases b with
    | identifier name' valid' => exact (Key.identifier.injEq ..).mpr h
    | integer index => exact absurd h (hmixed valid)
  | integer index =>
    cases b with
    | identifier name valid => exact absurd h.symm (hmixed valid)
    | integer index' => rw [indexComponent_injective h]

/-- An `Integer` is a Lua number, and comes back from it. -/
theorem integerOf_ofRanged (index : AdaInteger) :
    integerOf (ofRanged adaInteger_bounds index) = some index := by
  refine (toRanged_ofRanged_iff adaInteger_bounds index).mpr ⟨index.val.natAbs, 0, ?_, by simp⟩
  have hlo := index.le_val
  have hhi := index.val_le
  omega

theorem component_value (key : Key) : component key.value = some key.name := by
  cases key with
  | identifier name valid => rfl
  | integer index => rw [Key.value, component, integerOf_ofRanged]; rfl

/-! ### Entering a key -/

section Steps

variable {lua : Interp} {n : ℕ} {s u w atCall : State} {process : Load Unit}

theorem process_notMem_naming (k : Value) : ⟨[], .process atCall w⟩ ∉ naming u k := by
  cases k with
  | number x => cases hx : integerOf x <;> simp [naming, hx]
  | _ => simp [naming]

theorem process_notMem_removal (k : Value) : ⟨[], .process atCall w⟩ ∉ removal u k := by
  unfold removal
  split_ifs <;> simp

/-- A round of `Table_Iterate` calls `Process` once, in the state in which the key is entered. -/
theorem called_iff {v k : Value} {rest : List Value} (hs : u.luaState = v :: k :: rest) :
    ⟨[], .process atCall w⟩ ∈ (iterateBody atCall process lua n u).log ↔
      Namable u k ∧ w = entered u k := by
  let P : List Event → Prop := fun h =>
    ⟨[], .process atCall w⟩ ∈ h ↔ Namable u k ∧ w = entered u k
  refine log_of_wp (P := P) (Q := ⟨fun _ h _ => P h, fun _ h _ => P h, P⟩) ?_ (fun _ _ _ => id)
    (fun _ _ _ => id) fun _ => id
  refine wp_iterateBody hs (fun hno _ => ?_) fun hnam => ?_
  · simp [P, under_nil_map, process_notMem_naming, hno]
  · -- what `Process` does is logged inside the entry
    have hinner : ∀ l : List Event, ⟨[], .process atCall w⟩ ∈
        [] ++ (naming u k).map (under []) ++ [⟨[], .process atCall (entered u k)⟩] ++
          l.map (under ([] ++ [.entry k])) ↔ Namable u k ∧ w = entered u k := fun l => by
      simp [under_nil_map, process_notMem_naming, hnam, under]
    have hremoval : ∀ (l : List Event) (t : State), ⟨[], .process atCall w⟩ ∈
        [] ++ (naming u k).map (under []) ++ [⟨[], .process atCall (entered u k)⟩] ++
          l.map (under ([] ++ [.entry k])) ++ (removal t k).map (under []) ↔
        Namable u k ∧ w = entered u k := fun l t => by
      rw [List.mem_append, hinner l, under_nil_map, or_iff_left (process_notMem_removal k)]
    have hremoving : ∀ (l : List Event) (t : State), ⟨[], .process atCall w⟩ ∈
        [] ++ (naming u k).map (under []) ++ [⟨[], .process atCall (entered u k)⟩] ++
          l.map (under ([] ++ [.entry k])) ++ [⟨[], .removing t⟩] ↔
        Namable u k ∧ w = entered u k := fun l t => by
      rw [List.mem_append, hinner l, or_iff_left (by simp)]
    refine wp_mono (wp_history (Q := ⟨fun _ _ _ => True, fun _ _ _ => True, fun _ => True⟩)
      (wp_of_history (fun _ _ _ => trivial) (fun _ _ _ => trivial) fun _ => trivial)) ?_ ?_ ?_
    · rintro _ _ t ⟨-, l, rfl⟩
      exact ⟨fun _ _ => hremoval l t, fun _ _ => hremoval l t, fun _ _ => hremoving l t⟩
    · rintro e _ t ⟨-, l, rfl⟩
      cases e with
      | loadError m => exact ⟨fun _ => hremoval l t, fun _ _ => hremoving l t⟩
      | constraintError => exact hinner l
    · rintro _ ⟨-, l, rfl⟩
      exact hinner l

/-- A `Table_Start` that returns has added its name to the path. -/
theorem nameCode_of_tableStart {name : UString}
    (h : (tableStart name lua n u).ending = .done () w) :
    w.nameCode = extend '.' u.nameCode name := by
  have hwp : wp lua n (under []) (tableStart name)
      ⟨fun _ _ t => t.nameCode = extend '.' u.nameCode name, fun _ _ _ => True, fun _ => True⟩
      [] u :=
    wp_tableStart name trivial (fun _ _ _ _ _ _ => trivial) (fun _ _ _ _ _ _ _ => trivial)
      fun _ _ _ _ _ _ => rfl
  exact wp_done hwp h

end Steps

/-- The path of a chain. -/
theorem Enters.nameCode {lua : Interp} {s u : State} {keys : List Key} (h : Enters lua s keys u)
    (hs : s.nameCode = []) : u.nameCode = joined '.' (keys.map Key.name) := by
  have hadd : ∀ {keys : List Key} {t u : State} (key : Key), u.nameCode = t.nameCode →
      t.nameCode = joined '.' (keys.map Key.name) →
      extend '.' u.nameCode key.name = joined '.' ((keys ++ [key]).map Key.name) :=
    fun key hpath ht => by rw [hpath, ht, List.map_append, List.map_singleton, joined_append]
  induction h with
  | start => exact hs
  | iterate key process n inner path entry called ih =>
    obtain ⟨-, rfl⟩ := (called_iff entry).mp called
    rw [entered_nameCode, component_value]
    exact hadd key path ih
  | bracket name valid n inner path opens ih =>
    rw [nameCode_of_tableStart opens]
    exact hadd (.identifier name valid) path ih

/-- The path of a chain tells the chain. -/
theorem joined_names_injective :
    Function.Injective fun keys : List Key => joined '.' (keys.map Key.name) := by
  have hplain : ∀ keys : List Key, ∀ x ∈ keys.map Key.name, Plain '.' x := fun keys x hx => by
    obtain ⟨key, -, rfl⟩ := List.mem_map.mp hx
    exact plain_name key
  intro keys keys' h
  have hnames := congrArg (components '.') h
  rw [components_joined (hplain keys), components_joined (hplain keys')] at hnames
  exact name_injective.list_map hnames

/-- **Name paths are unambiguous**: chains of identifiers and integers that are entered from the
empty path and arrive at one path are one chain. -/
theorem chain_of_nameCode {lua lua' : Interp} {s s' u u' : State} {keys keys' : List Key}
    (hs : s.nameCode = []) (hs' : s'.nameCode = []) (h : Enters lua s keys u)
    (h' : Enters lua' s' keys' u') (hcode : u.nameCode = u'.nameCode) : keys = keys' := by
  rw [h.nameCode hs, h'.nameCode hs'] at hcode
  exact joined_names_injective hcode

def keyA : Key := .identifier "a".toList (by decide)

def keySeven : Key := .integer ⟨7, by norm_num, by norm_num⟩

/-- A table with one entry, whose key is 7. -/
def sevenTable : Table where
  entries := [(keySeven.value, .boolean true)]
  keys_nodup := List.nodup_singleton _
  keys_valid _ he := List.mem_singleton.mp he ▸ ⟨nofun, nofun⟩
  values_valid _ he := List.mem_singleton.mp he ▸ nofun

def indexedTables : Interp :=
  .ofTables [.ofRecord [("a".toList, .table 1)] (by decide) (by decide), sevenTable]

/-- In the table of the field `a`. -/
def inA : State := ⟨[.table 1, .table 0], 1, "a".toList, [], [], 0⟩

/-- A round of `Table_Iterate` enters the key on the stack. -/
theorem Enters.round {lua : Interp} {s t u : State} {keys : List Key} {key : Key} {v : Value}
    {rest : List Value} (h : Enters lua s keys t) (hpath : u.nameCode = t.nameCode)
    (hu : u.luaState = v :: key.value :: rest) (hnam : Namable u key.value) :
    Enters lua s (keys ++ [key]) (entered u key.value) := by
  have hcalled : ⟨[], .process t (entered u key.value)⟩ ∈ (iterateBody t (pure ()) lua 0 u).log :=
    (called_iff hu).mpr ⟨hnam, rfl⟩
  exact h.iterate key (pure ()) 0 hpath hu hcalled

theorem enters_seven {t : State} (h : Enters indexedTables (session 0) [keyA] t)
    (ht : t.nameCode = inA.nameCode) :
    ∃ u, Enters indexedTables (session 0) [keyA, keySeven] u ∧ u.nameCode = "a.[7]".toList := by
  let found : State := { inA with luaState := [.boolean true, keySeven.value, .table 1, .table 0] }
  have hnam : Namable found keySeven.value := ⟨by rw [integerOf_ofRanged]; rfl, by decide⟩
  refine ⟨entered found keySeven.value, h.round ht.symm rfl hnam, ?_⟩
  rw [entered_nameCode, component_value]
  decide

/-- The table of `a` is opened, or found in a traversal. -/
theorem chain_of_nameCode_seven : ∃ u u' : State,
    Enters indexedTables (session 0) [keyA, keySeven] u ∧
    Enters indexedTables (session 0) [keyA, keySeven] u' ∧ u.nameCode = "a.[7]".toList ∧
    u'.nameCode = "a.[7]".toList ∧ [keyA, keySeven] = [keyA, keySeven] := by
  have hopened : Enters indexedTables (session 0) [keyA] inA :=
    .bracket "a".toList (by decide) 0 .start rfl rfl
  let found : State := ⟨[.table 1, keyA.value, .table 0], 0, [], [], [], 0⟩
  have hnam : Namable found keyA.value := show 0 < naturalLast by decide
  have hfound : Enters indexedTables (session 0) [keyA] (entered found keyA.value) :=
    Enters.start.round rfl rfl hnam
  obtain ⟨u, hu, hcode⟩ := enters_seven hopened rfl
  obtain ⟨u', hu', hcode'⟩ := enters_seven hfound rfl
  exact ⟨u, u', hu, hu', hcode, hcode',
    chain_of_nameCode rfl rfl hu hu' (hcode.trans hcode'.symm)⟩

/-! ### Chains in runs -/

/-- The key of an element that is open. -/
inductive Opens : Key → Element → Prop
  | entry (key : Key) : Opens key (.entry key.value)
  | bracket (name : UString) (valid : isIdentifier name = true) :
      Opens (.identifier name valid) (.bracket name)

theorem Opens.nameOf {key : Key} {e : Element} (h : Opens key e) : nameOf e = some key.name := by
  cases h with
  | entry => exact component_value key
  | bracket => rfl

theorem namesOf_of_opens {keys : List Key} {path : List Element}
    (h : List.Forall₂ Opens keys path) : namesOf path = keys.map Key.name := by
  induction h with
  | nil => rfl
  | cons hopens _ ih => rw [namesOf, List.filterMap_cons_some hopens.nameOf, ← namesOf, ih]; rfl

section Runs

variable {lua lua' : Interp} {n n' : ℕ} {s s' u u' : State} {α β : Type} {p : Prog α} {p' : Prog β}
variable {path path' : List Element} {keys keys' : List Key}

/-- The path of the elements that are open is that of their keys. -/
theorem nameCode_of_reached (hp : p.Bracketed (Plain '.')) (hkeys : PlainKeys lua)
    (hs : s.nameCode = []) (hcalm : Calm (p.run lua n s).log)
    (hpath : List.Forall₂ Opens keys path)
    (hreached : ⟨path, .reached u⟩ ∈ (p.run lua n s).log) :
    u.nameCode = joined '.' (keys.map Key.name) := by
  have hnamed := named_of_steady hp ⟨hcalm, undoable_run hp hkeys⟩ _ hreached
  rw [hs] at hnamed
  rw [← namesOf_of_opens hpath]
  exact hnamed

/-- **Calls with one path** are made inside the same keys. -/
theorem chain_of_reached (hp : p.Bracketed (Plain '.')) (hp' : p'.Bracketed (Plain '.'))
    (hkeys : PlainKeys lua) (hkeys' : PlainKeys lua') (hs : s.nameCode = [])
    (hs' : s'.nameCode = []) (hcalm : Calm (p.run lua n s).log)
    (hcalm' : Calm (p'.run lua' n' s').log) (hpath : List.Forall₂ Opens keys path)
    (hpath' : List.Forall₂ Opens keys' path')
    (hreached : ⟨path, .reached u⟩ ∈ (p.run lua n s).log)
    (hreached' : ⟨path', .reached u'⟩ ∈ (p'.run lua' n' s').log)
    (hcode : u.nameCode = u'.nameCode) : keys = keys' := by
  rw [nameCode_of_reached hp hkeys hs hcalm hpath hreached,
    nameCode_of_reached hp' hkeys' hs' hcalm' hpath' hreached'] at hcode
  exact joined_names_injective hcode

end Runs

end LuaAdaLoad.Package.Chains
