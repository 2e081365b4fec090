import LuaAdaLoad.Package.Chains
import LuaAdaLoad.Package.FieldReads
import LuaAdaLoad.Package.Rounds

/-!
# Going through a tree of tables

A traversal ends, where every call of `Process` returns with the stack and the name as it found them,
and then it has done one round for every entry and left the loader in the state in which it was called
(`tableIterate_total`). So a `Process` that goes on into every table it is called on goes through the
whole tree of tables: it is called on everything in it once, under a name that no other element of the
tree has, and the name tells where the element is (`browse_visits`).
-/

namespace LuaAdaLoad.Package.Trees

open LuaAdaLoad.Control.Actions LuaAdaLoad.Control.Weakest LuaAdaLoad.Number.Floats
open LuaAdaLoad.Text.Dotted LuaAdaLoad.Text.Strings LuaAdaLoad.Lua.Values
open LuaAdaLoad.Package.Base LuaAdaLoad.Package.Names LuaAdaLoad.Package.Readers
open LuaAdaLoad.Package.Tables LuaAdaLoad.Package.Rules LuaAdaLoad.Package.Rounds
open LuaAdaLoad.Package.Client LuaAdaLoad.Package.Chains LuaAdaLoad.Package.FieldReads
open LuaAdaLoad.Package.NamePath hiding Steady

variable {lua : Interp} {n : ℕ} {s u w : State} {t : TableRef} {rest : List Value}

/-! ### One round -/

/-- The name of the entry of a key can be built, and taken away again. -/
structure Nameable (s : State) (k : Value) : Prop where
  namable : Namable s k
  undoes : ∀ name, component k = some name → Undoes s.nameCode name

/-- Taking the name of an entry away gives the state before it was built. -/
theorem left_entered {k : Value} (h : Nameable s k) : left (entered s k) k = s := by
  unfold left entered
  rcases hk : component k with _ | name
  · simp
  · simp only [Option.isSome_some, if_true, closed, opened, (h.undoes name hk).cut,
      Nat.add_sub_cancel]

theorem removable_entered {k : Value} (h : Nameable s k) : Removable (entered s k) k := by
  intro hsome
  obtain ⟨name, hk⟩ := Option.isSome_iff_exists.mp hsome
  unfold entered
  rw [hk]
  exact ⟨(h.undoes name hk).1, Nat.succ_ne_zero _⟩

theorem removeAdded_run (lua : Interp) (n : ℕ) {k : Value} (h : Removable w k) :
    removeAdded (component k).isSome lua n w = ⟨removal w k, .done () (left w k)⟩ := by
  unfold removeAdded left removal
  by_cases hk : (component k).isSome = true
  · simp only [if_pos hk]
    exact removeNameComponent_ok (h hk).1 (h hk).2
  · simp only [if_neg hk]
    rfl

/-- Two states in which the loader is the same; what differs is the caller's. -/
structure Undisturbed (s t : State) : Prop where
  luaState : t.luaState = s.luaState
  nameDepth : t.nameDepth = s.nameDepth
  nameCode : t.nameCode = s.nameCode

theorem Undisturbed.refl (s : State) : Undisturbed s s := ⟨rfl, rfl, rfl⟩

theorem Undisturbed.trans (h : Undisturbed s u) (h' : Undisturbed u w) : Undisturbed s w :=
  ⟨h'.luaState.trans h.luaState, h'.nameDepth.trans h.nameDepth, h'.nameCode.trans h.nameCode⟩

theorem Undisturbed.left {k : Value} (h : Undisturbed s w) : Undisturbed (left s k) (left w k) := by
  unfold Tables.left
  split_ifs
  · exact ⟨h.luaState, congrArg (· - 1) h.nameDepth, congrArg (cutLast '.') h.nameCode⟩
  · exact h

theorem Undisturbed.removable {k : Value} (h : Undisturbed s w) (hr : Removable s k) :
    Removable w k := by
  unfold Removable at hr ⊢
  rwa [h.nameCode, h.nameDepth]

/-- **One round**, where `Process` returns with the loader as it found it. -/
theorem iterateBody_run {atCall : State} {process : Load Unit} {v k : Value} {inner : List Event}
    (hs : s.luaState = v :: k :: rest) (hk : Nameable s k)
    (hprocess : process lua n (entered s k) = ⟨inner, .done () w⟩)
    (hw : Undisturbed (entered s k) w) :
    iterateBody atCall process lua n s =
      ⟨roundLog atCall s w k inner, .done () (dropped (left w k))⟩ := by
  have hname : nameKey lua n s = ⟨naming s k, .done (component k).isSome (entered s k)⟩ := by
    rcases nameKey_run lua n hs with ⟨-, hrun⟩ | ⟨hno, -⟩
    · exact hrun
    · exact absurd hk.namable hno
  have hkey : stackAt (entered s k).luaState (-2) = some k := by
    rw [entered_luaState, hs, stackAt_neg_two]
    rfl
  have hcall : callProcess atCall (component k).isSome process lua n (entered s k) =
      ⟨[⟨[], .process atCall (entered s k)⟩] ++ inner.map (under [.entry k]), .done () w⟩ := by
    simp only [callProcess, record, bind_run, get_run, note_run, andThen_done, List.nil_append,
      hkey, Option.getD_some, attempt, inside, relabel_run, hprocess]
  have hremove := removeAdded_run lua n (hw.removable (removable_entered hk))
  have hpop : pop 1 lua n (left w k) = ⟨[], .done () (dropped (left w k))⟩ := by
    have hstack : (left w k).luaState = v :: k :: rest := by
      rw [left_luaState, hw.luaState, entered_luaState, hs]
    rw [pop_one_run lua n _ hstack, dropped, hstack]
    rfl
  simp only [iterateBody, bind_run, hname, hcall, hremove, hpop, andThen_done, List.append_nil,
    roundLog, List.append_assoc]

/-! ### The traversal -/

/-- The state in which the round of an entry begins. -/
def facing (s : State) (k v : Value) : State := { s with luaState := v :: k :: s.luaState }

/-- The state in which `lua_next` is called after the entry of a key. -/
def between (s : State) (k : Value) : State := { s with luaState := k :: s.luaState }

/-- The loop of a traversal, from after the entries `pre` on. `I` is asserted of the entries that
were visited, of the log and of the state between two rounds. -/
theorem loop_total {process : Load Unit} {atCall : State}
    {I : List (Value × Value) → List Event → State → Prop}
    (hround : ∀ pre k v post h u, (lua.tables t).entries = pre ++ (k, v) :: post →
      Undisturbed s u → I pre h u → ∃ inner w,
        process lua n (entered (facing u k v) k) = ⟨inner, .done () w⟩ ∧
        Undisturbed (entered (facing u k v) k) w ∧
        I (pre ++ [(k, v)]) (h ++ roundLog atCall (facing u k v) w k inner)
          { left w k with luaState := u.luaState })
    (hkeys : ∀ e ∈ (lua.tables t).entries, Nameable s e.1) (hs : s.luaState = .table t :: rest)
    (post : List (Value × Value)) : ∀ {pre h u m}, (lua.tables t).entries = pre ++ post →
      post.length < m → Undisturbed s u → I pre h u →
      ∃ l w, loopUpTo (next (-2)) (iterateBody atCall process) m lua n (between u (lastKey pre)) =
          ⟨l, .done () w⟩ ∧ Undisturbed s w ∧ I (lua.tables t).entries (h ++ l) w := by
  induction post with
  | nil =>
    intro pre h u m hes hm hu hI
    obtain ⟨m, rfl⟩ := Nat.exists_eq_succ_of_ne_zero (by omega : m ≠ 0)
    have hstack : (between u (lastKey pre)).luaState = lastKey pre :: .table t :: rest := by
      rw [between, hu.luaState, hs]
    have hnext : next (-2) lua n (between u (lastKey pre)) = _ :=
      next_end hstack (Table.next_lastKey hes)
    refine ⟨[], u, ?_, hu, ?_⟩
    · rw [Nat.succ_eq_add_one, loopUpTo_succ, bind_run, hnext, andThen_done]
      simp only [Bool.false_eq_true, if_false, pure_run, List.nil_append, between]
      rw [← hs, ← hu.luaState]
    · rw [List.append_nil] at hes ⊢
      rwa [hes]
  | cons e post ih =>
    intro pre h u m hes hm hu hI
    obtain ⟨k, v⟩ := e
    obtain ⟨m, rfl⟩ := Nat.exists_eq_succ_of_ne_zero (by omega : m ≠ 0)
    have hstack : (between u (lastKey pre)).luaState = lastKey pre :: .table t :: rest := by
      rw [between, hu.luaState, hs]
    have hnext : next (-2) lua n (between u (lastKey pre)) = _ :=
      next_more hstack ((Table.next_lastKey hes).trans (congrArg some List.head?_cons))
    have hface : { between u (lastKey pre) with luaState := v :: k :: .table t :: rest } =
        facing u k v := by
      rw [facing, between, hu.luaState, hs]
    rw [hface] at hnext
    have hkey : Nameable (facing u k v) k := by
      obtain ⟨hnam, hund⟩ := hkeys (k, v) (by simp [hes])
      refine ⟨?_, fun name hname => ?_⟩
      · unfold Namable at hnam ⊢
        rw [show (facing u k v).nameDepth = s.nameDepth from hu.nameDepth]
        exact hnam
      · rw [show (facing u k v).nameCode = s.nameCode from hu.nameCode]
        exact hund name hname
    obtain ⟨inner, w, hprocess, hw, hI'⟩ := hround pre k v post h u hes hu hI
    have hbody : iterateBody atCall process lua n (facing u k v) = _ :=
      iterateBody_run rfl hkey hprocess hw
    have hleft : Undisturbed (facing u k v) (left w k) := by
      have hleft : Undisturbed (left (entered (facing u k v) k) k) (left w k) := hw.left
      rwa [left_entered hkey] at hleft
    have hdropped : dropped (left w k) = between { left w k with luaState := u.luaState } k := by
      rw [dropped, between, hleft.luaState]
      rfl
    have hsame' : Undisturbed s { left w k with luaState := u.luaState } :=
      ⟨hu.luaState, hleft.nameDepth.trans hu.nameDepth, hleft.nameCode.trans hu.nameCode⟩
    have hes' : (lua.tables t).entries = (pre ++ [(k, v)]) ++ post := by simp [hes]
    have hm' : post.length < m := by simpa using hm
    obtain ⟨l, w', hrest, hsame, hI''⟩ := ih hes' hm' hsame' hI'
    refine ⟨roundLog atCall (facing u k v) w k inner ++ l, w', ?_, hsame, ?_⟩
    · rw [lastKey_append] at hrest
      rw [Nat.succ_eq_add_one, loopUpTo_succ, bind_run, hnext, andThen_done]
      simp only [if_true, bind_run, hbody, andThen_done, hdropped, hrest, List.nil_append]
    · rwa [← List.append_assoc]

/-- **A traversal ends**, with the loader as it was found, after one round for every entry. -/
theorem tableIterate_total {process : Load Unit}
    {I : List (Value × Value) → List Event → State → Prop} (hs : s.luaState = .table t :: rest)
    (hn : (lua.tables t).entries.length < n)
    (hkeys : ∀ e ∈ (lua.tables t).entries, Nameable s e.1) (hstart : I [] [] s)
    (hround : ∀ pre k v post h u, (lua.tables t).entries = pre ++ (k, v) :: post →
      Undisturbed s u → I pre h u → ∃ inner w,
        process lua n (entered (facing u k v) k) = ⟨inner, .done () w⟩ ∧
        Undisturbed (entered (facing u k v) k) w ∧
        I (pre ++ [(k, v)]) (h ++ roundLog s (facing u k v) w k inner)
          { left w k with luaState := u.luaState }) :
    ∃ l w, tableIterate process lua n s = ⟨l, .done () w⟩ ∧ Undisturbed s w ∧
      I (lua.tables t).entries l w := by
  have htype : typeAt s.luaState (-1) = .table := by rw [hs]; rfl
  rw [tableIterate_table htype]
  exact loop_total hround hkeys hs _ rfl hn (.refl s) hstart

/-! ### Trees of tables -/

/-- The tables below a table are nested at most `d` levels deep, each has less than `n` entries, and
the keys are identifiers and integers. -/
def Fits (lua : Interp) (n : ℕ) : ℕ → TableRef → Prop
  | 0, _ => False
  | d + 1, t => (lua.tables t).entries.length < n ∧ ∀ e ∈ (lua.tables t).entries,
      (∃ key : Key, e.1 = key.value) ∧ ∀ u, e.2 = .table u → Fits lua n d u

/-- The value that Lua finds for `v.key₁.key₂…`, nil where there is none. -/
def valueAt (lua : Interp) : Value → List Key → Value
  | v, [] => v
  | .table t, key :: keys => valueAt lua ((lua.tables t).field key.value) keys
  | _, _ :: _ => .nil

/-- The path with the name of an entry. -/
def pathTo (path : UString) (k : Value) : UString := (component k).elim path (extend '.' path)

/-- What is listed for a value, if it is a table. -/
def below {α : Type} (inTable : TableRef → List α) : Value → List α
  | .table t => inTable t
  | _ => []

/-- Everything in a tree of tables, with its path, in the order of a traversal that goes into every
table that it comes to. -/
def listing (lua : Interp) : ℕ → UString → TableRef → List (UString × Value)
  | 0, _, _ => []
  | d + 1, path, t => (lua.tables t).entries.flatMap fun e =>
      (pathTo path e.1, e.2) :: below (listing lua d (pathTo path e.1)) e.2

/-- Go on into a table. -/
def goOn (inTable : Prog Unit) : LuaType → Prog Unit
  | .table => inTable
  | _ => .pure ()

/-- A `Process` goes on into every table that it is called on, and so on, `d` levels deep. -/
def browse : ℕ → Prog Unit
  | 0 => .pure ()
  | d + 1 => .iterate (.bind (.read .valueType) (goOn (browse d)))

/-- What `Process` was called on, at any depth, with the names that it found. -/
def seen (h : List Event) : List (UString × Value) := h.filterMap fun ev =>
  match ev.what with
  | .process _ s => some (s.nameCode, s.luaState.headD .nil)
  | _ => none

theorem seen_append (a b : List Event) : seen (a ++ b) = seen a ++ seen b := List.filterMap_append

theorem seen_under (path : List Element) (l : List Event) : seen (l.map (under path)) = seen l := by
  unfold seen
  rw [List.filterMap_map]
  rfl

theorem seen_roundLog (atCall s w : State) (k : Value) (inner : List Event) :
    seen (roundLog atCall s w k inner) =
      ((entered s k).nameCode, s.luaState.headD .nil) :: seen inner := by
  have hnaming : seen (naming s k) = [] := by
    cases k with
    | number x => cases hx : integerOf x <;> simp [naming, seen, hx]
    | _ => rfl
  have hremoval : seen (removal w k) = [] := by
    unfold removal
    split_ifs <;> rfl
  simp only [roundLog, seen_append, seen_under, hnaming, hremoval, List.nil_append,
    List.append_nil]
  simp [seen]

/-- Keys of ordinary tables have names that can be taken away. -/
theorem nameable_value (key : Key) (hd : s.nameDepth < naturalLast) : Nameable s key.value := by
  refine ⟨?_, fun name hname => ?_⟩
  · cases key with
    | identifier name valid => exact hd
    | integer index => exact ⟨by rw [integerOf_ofRanged]; rfl, hd⟩
  · rw [component_value, Option.some.injEq] at hname
    subst hname
    exact undoes_of_plain (plain_name key) _

theorem reach_run : reach lua n s = ⟨[⟨[], .reached s⟩], .done () s⟩ := by
  simp [reach, record]

/-- What `Process` does on an entry. -/
theorem goOn_run {p : Prog Unit} {v : Value} {inTable : TableRef → List (UString × Value)}
    (hs : s.luaState = v :: rest) (hp : ∀ u, v = .table u →
      ∃ log, p.run lua n s = ⟨log, .done () s⟩ ∧ seen log = inTable u) :
    ∃ log, (Prog.bind (.read .valueType) (goOn p)).run lua n s = ⟨log, .done () s⟩ ∧
      seen log = below inTable v := by
  have hread : (Prog.read .valueType).run lua n s = ⟨[⟨[], .reached s⟩], .done v.type s⟩ := by
    change (reach >>= fun _ => valueType) lua n s = _
    rw [bind_run, reach_run, andThen_done, valueType_run, hs, typeAt_top]
    rfl
  have hbind : (Prog.bind (.read .valueType) (goOn p)).run lua n s =
      ⟨[⟨[], .reached s⟩] ++ ((goOn p v.type).run lua n s).log,
        ((goOn p v.type).run lua n s).ending⟩ := by
    change ((Prog.read .valueType).run >>= fun a => (goOn p a).run) lua n s = _
    rw [bind_run, hread]
    rfl
  rw [hbind]
  cases v with
  | table u =>
    obtain ⟨log, hrun, hseen⟩ := hp u rfl
    refine ⟨[⟨[], .reached s⟩] ++ log, ?_, ?_⟩
    · rw [show goOn p (Value.table u).type = p from rfl, hrun]
    · rw [seen_append, hseen]
      rfl
  | _ => exact ⟨_, rfl, rfl⟩

/-- **The tree is gone through**, and the loader is as it was. -/
theorem browse_run {d : ℕ} : ∀ {s : State} {t : TableRef} {rest : List Value}, Fits lua n d t →
    s.luaState = .table t :: rest → s.nameDepth + d ≤ naturalLast →
    ∃ log, (browse d).run lua n s = ⟨log, .done () s⟩ ∧ seen log = listing lua d s.nameCode t := by
  induction d with
  | zero => exact fun hfits => hfits.elim
  | succ d ih =>
    intro s t rest hfits hs hdepth
    obtain ⟨hn, hentries⟩ := hfits
    have hkeys : ∀ e ∈ (lua.tables t).entries, Nameable s e.1 := fun e he => by
      obtain ⟨key, hkey⟩ := (hentries e he).1
      rw [hkey]
      exact nameable_value key (by omega)
    have htotal : ∃ l w,
        tableIterate (Prog.bind (.read .valueType) (goOn (browse d))).run lua n s =
          ⟨l, .done () w⟩ ∧ Undisturbed s w ∧ w = s ∧ seen l =
            (lua.tables t).entries.flatMap fun e =>
              (pathTo s.nameCode e.1, e.2) :: below (listing lua d (pathTo s.nameCode e.1)) e.2 := by
      refine tableIterate_total (I := fun pre h u => u = s ∧ seen h = pre.flatMap fun e =>
        (pathTo s.nameCode e.1, e.2) :: below (listing lua d (pathTo s.nameCode e.1)) e.2) hs hn
        hkeys ⟨rfl, rfl⟩ ?_
      rintro pre k v post h u hes - ⟨rfl, hseen⟩
      have hmem : (k, v) ∈ (lua.tables t).entries := by simp [hes]
      have hface : Nameable (facing u k v) k := ⟨(hkeys _ hmem).namable, (hkeys _ hmem).undoes⟩
      have hcode : (entered (facing u k v) k).nameCode = pathTo u.nameCode k :=
        entered_nameCode _ _
      have hstack : (entered (facing u k v) k).luaState = v :: k :: u.luaState :=
        entered_luaState _ _
      obtain ⟨inner, hrun, hinner⟩ := goOn_run (p := browse d) hstack fun u' hu' => by
        refine ih ((hentries _ hmem).2 u' hu') (by rw [hstack, hu']) ?_
        have hone : (component k).toList.length ≤ 1 := by cases component k <;> simp
        rw [entered_nameDepth, show (facing u k v).nameDepth = u.nameDepth from rfl]
        omega
      refine ⟨inner, _, hrun, .refl _, ?_, ?_⟩
      · rw [left_entered hface]
        rfl
      · rw [seen_append, hseen, seen_roundLog, hcode, hinner, List.flatMap_append, hcode]
        simp [facing]
    obtain ⟨l, w, hrun, -, rfl, hseen⟩ := htotal
    refine ⟨[⟨[], .reached w⟩] ++ l, ?_, ?_⟩
    · change (reach >>= fun _ => tableIterate _) lua n w = _
      rw [bind_run, reach_run, andThen_done, hrun]
    · rw [seen_append, hseen]
      rfl

/-! ### What is listed -/

/-- The path of a chain of keys. -/
def chainPath (keys : List Key) : UString := joined '.' (keys.map Key.name)

theorem pathTo_chainPath (keys : List Key) (key : Key) :
    pathTo (chainPath keys) key.value = chainPath (keys ++ [key]) := by
  rw [pathTo, component_value, chainPath, chainPath, List.map_append, List.map_singleton,
    joined_append]
  rfl

theorem chainPath_injective : Function.Injective chainPath := joined_names_injective

theorem field_of_mem {t : Table} {k v : Value} (h : (k, v) ∈ t.entries) : t.field k = v := by
  have hall : ∀ es : List (Value × Value), (es.map Prod.fst).Nodup → (k, v) ∈ es →
      es.find? (fun e => e.1 = k) = some (k, v) := by
    intro es hnodup hmem
    induction es with
    | nil => exact absurd hmem List.not_mem_nil
    | cons e es ih =>
      rw [List.map_cons, List.nodup_cons] at hnodup
      rcases List.mem_cons.mp hmem with rfl | hmem
      · simp
      · have hne : e.1 ≠ k := fun hk => hnodup.1 (hk ▸ List.mem_map_of_mem (f := Prod.fst) hmem)
        rw [List.find?_cons_of_neg (by simpa using hne)]
        exact ih hnodup.2 hmem
  rw [Table.field, hall _ t.keys_nodup h]
  rfl

theorem mem_of_field {t : Table} {k : Value} (h : t.field k ≠ .nil) :
    (k, t.field k) ∈ t.entries := by
  unfold Table.field at h ⊢
  rcases hf : t.entries.find? fun e => e.1 = k with _ | e
  · simp [hf] at h
  · have hk : e.1 = k := by simpa using List.find?_some hf
    rw [hf, Option.map_some, Option.getD_some, ← hk]
    exact List.mem_of_find?_eq_some hf

theorem valueAt_of_not_table {v : Value} (h : ∀ t, v ≠ .table t) (key : Key) (keys : List Key) :
    valueAt lua v (key :: keys) = .nil := by
  cases v with
  | table t => exact absurd rfl (h t)
  | _ => rfl

/-- **What is listed** is what Lua finds along a chain of keys. -/
theorem mem_listing {d : ℕ} {name : UString} {v : Value} : ∀ {t : TableRef} {pre : List Key},
    Fits lua n d t → ((name, v) ∈ listing lua d (chainPath pre) t ↔
      ∃ keys, keys ≠ [] ∧ name = chainPath (pre ++ keys) ∧ valueAt lua (.table t) keys = v ∧
        v ≠ .nil) := by
  induction d with
  | zero => exact fun hfits => hfits.elim
  | succ d ih =>
    intro t pre hfits
    obtain ⟨-, hentries⟩ := hfits
    rw [listing, List.mem_flatMap]
    constructor
    · rintro ⟨⟨k, w⟩, hmem, hlisted⟩
      obtain ⟨⟨key, rfl⟩, htables⟩ := hentries _ hmem
      have hfield := field_of_mem hmem
      rw [pathTo_chainPath] at hlisted
      rcases List.mem_cons.mp hlisted with hhere | hbelow
      · obtain ⟨rfl, rfl⟩ := Prod.mk.inj hhere
        exact ⟨[key], by simp, rfl, hfield, (lua.tables t).values_valid _ hmem⟩
      · cases w with
        | table u =>
          obtain ⟨keys, -, hname, hvalue, hnil⟩ := (ih (htables u rfl)).mp hbelow
          refine ⟨key :: keys, by simp, by simpa using hname, ?_, hnil⟩
          rw [valueAt, hfield, hvalue]
        | _ => exact absurd hbelow List.not_mem_nil
    · rintro ⟨keys, hne, hname, hvalue, hnil⟩
      obtain ⟨key, keys, rfl⟩ := List.exists_cons_of_ne_nil hne
      rw [valueAt] at hvalue
      have hfield : (lua.tables t).field key.value ≠ .nil := by
        intro hno
        rw [hno] at hvalue
        cases keys with
        | nil => exact hnil hvalue.symm
        | cons key' keys =>
          rw [valueAt_of_not_table (by simp)] at hvalue
          exact hnil hvalue.symm
      have hmem := mem_of_field hfield
      refine ⟨_, hmem, ?_⟩
      rw [pathTo_chainPath, List.mem_cons]
      cases keys with
      | nil => exact .inl (by rw [hname, ← hvalue]; rfl)
      | cons key' keys =>
        right
        cases hw : (lua.tables t).field key.value with
        | table u =>
          rw [hw] at hvalue
          refine (ih ((hentries _ hmem).2 u hw)).mpr ⟨key' :: keys, by simp, ?_, hvalue, hnil⟩
          simpa using hname
        | _ =>
          rw [hw, valueAt_of_not_table (by simp)] at hvalue
          exact absurd hvalue.symm hnil

/-- **No two things have one path.** -/
theorem listing_nodup {d : ℕ} : ∀ {t : TableRef} {pre : List Key}, Fits lua n d t →
    ((listing lua d (chainPath pre) t).map Prod.fst).Nodup := by
  induction d with
  | zero => exact fun hfits => hfits.elim
  | succ d ih =>
    intro t pre hfits
    obtain ⟨-, hentries⟩ := hfits
    -- a path that is listed for an entry begins with the chain of its key
    have hbegins : ∀ {key : Key} {w : Value} {name : UString}, (key.value, w) ∈
        (lua.tables t).entries → name ∈ ((pathTo (chainPath pre) key.value, w) ::
          below (listing lua d (pathTo (chainPath pre) key.value)) w).map Prod.fst →
        ∃ keys, name = chainPath (pre ++ key :: keys) := by
      intro key w name hmem hname
      rw [pathTo_chainPath] at hname
      rcases List.mem_cons.mp hname with rfl | hbelow
      · exact ⟨[], rfl⟩
      · obtain ⟨⟨name', v⟩, hlisted, rfl⟩ := List.mem_map.mp hbelow
        cases w with
        | table u =>
          obtain ⟨keys, -, hpath, -⟩ := (mem_listing ((hentries _ hmem).2 u rfl)).mp hlisted
          exact ⟨keys, by simpa using hpath⟩
        | _ => exact absurd hlisted List.not_mem_nil
    rw [listing, List.map_flatMap, List.nodup_flatMap]
    constructor
    · rintro ⟨k, w⟩ hmem
      obtain ⟨⟨key, rfl⟩, htables⟩ := hentries _ hmem
      rw [List.map_cons, List.nodup_cons, pathTo_chainPath]
      cases w with
      | table u =>
        refine ⟨fun hname => ?_, ih (htables u rfl)⟩
        obtain ⟨⟨name, v⟩, hlisted, hpath⟩ := List.mem_map.mp hname
        obtain ⟨keys, hne, hpath', -⟩ := (mem_listing (htables u rfl)).mp hlisted
        have hkeys := chainPath_injective (hpath.symm.trans hpath')
        exact hne (by simpa using hkeys)
      | _ => exact ⟨List.not_mem_nil, List.nodup_nil⟩
    · have hpairs : (lua.tables t).entries.Pairwise fun e e' => e.1 ≠ e'.1 :=
        List.pairwise_map.mp (lua.tables t).keys_nodup
      refine hpairs.imp_of_mem fun {e e'} he he' hne => ?_
      obtain ⟨⟨key, hkey⟩, -⟩ := hentries e he
      obtain ⟨⟨key', hkey'⟩, -⟩ := hentries e' he'
      obtain ⟨k, w⟩ := e
      obtain ⟨k', w'⟩ := e'
      obtain rfl : k = key.value := hkey
      obtain rfl : k' = key'.value := hkey'
      intro name hname hname'
      obtain ⟨keys, hpath⟩ := hbegins he hname
      obtain ⟨keys', hpath'⟩ := hbegins he' hname'
      have hkeys := List.append_cancel_left (chainPath_injective (hpath.symm.trans hpath'))
      exact hne (congrArg Key.value (List.cons.inj hkeys).1)

/-- **A traversal goes through the whole tree.** In the table of the chain `pre`, it ends with the
loader as it was; `Process` has seen what Lua finds along the chains of keys, each thing once, under
the name of its chain. -/
theorem browse_visits {d : ℕ} {pre : List Key} (hfits : Fits lua n d t)
    (hs : s.luaState = .table t :: rest) (hcode : s.nameCode = chainPath pre)
    (hdepth : s.nameDepth + d ≤ naturalLast) :
    ∃ log, (browse d).run lua n s = ⟨log, .done () s⟩ ∧ ((seen log).map Prod.fst).Nodup ∧
      ∀ name v, (name, v) ∈ seen log ↔ ∃ keys, keys ≠ [] ∧ name = chainPath (pre ++ keys) ∧
        valueAt lua (.table t) keys = v ∧ v ≠ .nil := by
  obtain ⟨log, hrun, hseen⟩ := browse_run hfits hs hdepth
  rw [hcode] at hseen
  refine ⟨log, hrun, ?_, fun name v => ?_⟩
  · rw [hseen]
    exact listing_nodup hfits
  · rw [hseen]
    exact mem_listing hfits

theorem fits_indexed : Fits indexedTables 9 2 0 := by
  refine ⟨by decide, fun e he => ?_⟩
  obtain rfl := List.mem_singleton.mp he
  refine ⟨⟨keyA, rfl⟩, fun u hu => ?_⟩
  obtain rfl : 1 = u := Value.table.inj hu
  refine ⟨by decide, fun e he => ?_⟩
  obtain rfl := List.mem_singleton.mp he
  exact ⟨⟨keySeven, rfl⟩, fun u hu => absurd hu nofun⟩

theorem browse_visits_indexed : ∃ log,
    (browse 2).run indexedTables 9 (session 0) = ⟨log, .done () (session 0)⟩ ∧
      ((seen log).map Prod.fst).Nodup ∧ ∀ name v, (name, v) ∈ seen log ↔
        ∃ keys, keys ≠ [] ∧ name = chainPath ([] ++ keys) ∧
          valueAt indexedTables (.table 0) keys = v ∧ v ≠ .nil :=
  have htop : (session 0).luaState = [.table 0] := rfl
  browse_visits fits_indexed htop rfl (by decide)

/-! ### Reading at a path -/

/-- Open the tables of a chain of names, one in the other, read a field of the last one and close
them. -/
def readIn (r : FieldRead) : List UString → Load r.kind.Result
  | [] => r.run
  | name :: names => do
    tableStart name
    let a ← readIn r names
    tableEnd
    return a

/-- The keys that `Table_Start` can be called with. -/
def IsIdentifier : Key → Prop
  | .identifier _ _ => True
  | .integer _ => False

instance : DecidablePred IsIdentifier := fun key => by
  cases key <;> unfold IsIdentifier <;> infer_instance

theorem IsIdentifier.value {key : Key} (h : IsIdentifier key) : key.value = .string key.name := by
  cases key with
  | identifier name valid => rfl
  | integer index => exact h.elim

/-- The field of a key. -/
def fieldOf : Key → Field
  | .identifier name _ => .named name
  | .integer index => .indexed ⟨index.val, by have := index.le_val; omega,
      by have := index.val_le; omega⟩

theorem fieldKey_fieldOf (key : Key) : fieldKey (fieldOf key) = key.value := by
  cases key <;> rfl

/-- Closing a table gives the loader before it was opened. -/
theorem tableEnd_opened {name : UString} (hname : Plain '.' name)
    (hw : SameLoader (opened (pushed s (.table t)) name) w) :
    ∃ l u, tableEnd lua n w = ⟨l, .done () u⟩ ∧ SameLoader s u := by
  obtain ⟨hstack, hcode, hdepth, hfile⟩ := hw
  have htop : typeAt w.luaState (-1) = .table := by rw [hstack]; rfl
  have hundo : Undoes s.nameCode name := undoes_of_plain hname _
  have hne : w.nameCode ≠ [] := by rw [hcode]; exact hundo.1
  have hzero : w.nameDepth ≠ 0 := by rw [hdepth]; exact Nat.succ_ne_zero _
  refine ⟨_, _, tableEnd_ok htop hne hzero, ?_, ?_, ?_, hfile⟩
  · rw [dropped, closed_luaState, hstack]
    rfl
  · change cutLast '.' w.nameCode = s.nameCode
    rw [hcode]
    exact hundo.cut
  · change w.nameDepth - 1 = s.nameDepth
    rw [hdepth]
    exact Nat.add_sub_cancel _ _

/-- **Reading at a path** gives what the field there says: its value, with the loader as it was, or an
error at that path. -/
theorem readIn_gives (n : ℕ) (r : FieldRead) {v : TableRef} (keys : List Key) :
    ∀ {s : State} {t : TableRef} {rest : List Value} {pre : List Key},
    (∀ key ∈ keys, IsIdentifier key) → s.luaState = .table t :: rest →
    s.nameCode = chainPath pre → s.nameDepth + keys.length ≤ naturalLast →
    valueAt lua (.table t) keys = .table v →
    outcomeOf (readIn r (keys.map Key.name) lua n s).ending =
        fieldOutcome lua (chainPath (pre ++ keys)) r
          ((lua.tables v).field (fieldKey r.field)) ∧
      ∀ a w, (readIn r (keys.map Key.name) lua n s).ending = .done a w → SameLoader s w := by
  induction keys with
  | nil =>
    intro s t rest pre _ hs hcode _ hv
    obtain rfl : t = v := Value.table.inj hv
    obtain ⟨houtcome, hsame⟩ : Gives s _ (r.run lua n s) := fieldRead_gives n r hs
    rw [hcode, ← List.append_nil pre] at houtcome
    refine ⟨houtcome, fun a w hdone => ?_⟩
    change (r.run lua n s).ending = _ at hdone
    rwa [hdone] at hsame
  | cons key keys ih =>
    intro s t rest pre hids hs hcode hdepth hv
    rw [List.length_cons] at hdepth
    have hkey := hids key List.mem_cons_self
    obtain ⟨u, hu⟩ : ∃ u, (lua.tables t).field key.value = .table u := by
      rw [valueAt] at hv
      cases hf : (lua.tables t).field key.value with
      | table u => exact ⟨u, rfl⟩
      | _ =>
        rw [hf] at hv
        cases keys with
        | nil => exact absurd hv (by simp [valueAt])
        | cons key' keys => exact absurd hv (by rw [valueAt_of_not_table (by simp)]; simp)
    rw [valueAt, hu] at hv
    rw [hkey.value] at hu
    have hstart : tableStart key.name lua n s = _ := tableStart_ok hs hu (by omega)
    set s₁ := opened (pushed s (.table u)) key.name with hs₁
    have hcode₁ : s₁.nameCode = chainPath (pre ++ [key]) := by
      rw [← pathTo_chainPath, pathTo, component_value, ← hcode]
      rfl
    have hdepth₁ : s₁.nameDepth + keys.length ≤ naturalLast := by
      have : s₁.nameDepth = s.nameDepth + 1 := rfl
      omega
    have hstack₁ : s₁.luaState = .table u :: s.luaState := rfl
    obtain ⟨houtcome, hsame⟩ := ih (fun key' hmem => hids key' (List.mem_cons_of_mem _ hmem))
      hstack₁ hcode₁ hdepth₁ hv
    rw [List.append_assoc, List.singleton_append] at houtcome
    have hrun : (readIn r ((key :: keys).map Key.name) lua n s).ending =
        ((do
          let a ← readIn r (keys.map Key.name)
          tableEnd
          return a) lua n s₁).ending := by
      rw [List.map_cons, readIn, bind_run, hstart, andThen_done]
    rw [hrun, ← houtcome]
    rcases hinner : readIn r (keys.map Key.name) lua n s₁ with ⟨l, ⟨a, w⟩ | ⟨e, w⟩ | _ | _⟩ <;>
      simp only [bind_run, hinner, andThen_done, andThen_raised, andThen_aborted,
        andThen_unfinished] at hsame ⊢
    · obtain ⟨l', w', hend, hw'⟩ : ∃ l u, tableEnd lua n w = ⟨l, .done () u⟩ ∧ SameLoader s u :=
        tableEnd_opened (plain_name key) (hsame a w rfl)
      rw [hend, andThen_done]
      refine ⟨rfl, fun a' w'' hdone => ?_⟩
      obtain ⟨-, rfl⟩ : a = a' ∧ w' = w'' := by simpa using hdone
      exact hw'
    · exact ⟨trivial, fun a w hdone => absurd hdone (by simp)⟩
    · exact ⟨trivial, fun a w hdone => absurd hdone (by simp)⟩
    · exact ⟨trivial, fun a w hdone => absurd hdone (by simp)⟩

theorem valueAt_append (keys : List Key) (key : Key) : ∀ {v : Value},
    valueAt lua v (keys ++ [key]) = valueAt lua (valueAt lua v keys) [key] := by
  induction keys with
  | nil => exact fun {v} => rfl
  | cons key' keys ih =>
    intro v
    cases v with
    | table t => exact ih
    | _ => rfl

/-- No chain of keys is longer than the tree is deep. -/
theorem length_le_of_valueAt {d : ℕ} : ∀ {t : TableRef} {keys : List Key}, Fits lua n d t →
    valueAt lua (.table t) keys ≠ .nil → keys.length ≤ d := by
  induction d with
  | zero => exact fun hfits => hfits.elim
  | succ d ih =>
    rintro t keys ⟨-, hentries⟩ hv
    cases keys with
    | nil => exact Nat.zero_le _
    | cons key keys =>
      rw [valueAt] at hv
      rw [List.length_cons]
      cases keys with
      | nil => simp
      | cons key' keys =>
        cases hf : (lua.tables t).field key.value with
        | table u =>
          have hmem : (key.value, Value.table u) ∈ (lua.tables t).entries :=
            hf ▸ mem_of_field (by rw [hf]; simp)
          rw [hf] at hv
          exact Nat.succ_le_succ (ih ((hentries _ hmem).2 u rfl) hv)
        | _ => exact absurd (by rw [hf, valueAt_of_not_table (by simp)]) hv

theorem valueAt_indexed :
    valueAt indexedTables (.table 0) [keyA, keySeven] = .boolean true := by
  have htop : (indexedTables.tables 0).field keyA.value = .table 1 := rfl
  have hseven : (indexedTables.tables 1).field keySeven.value = .boolean true :=
    field_of_mem List.mem_cons_self
  rw [valueAt, htop, valueAt, hseven]
  rfl

end LuaAdaLoad.Package.Trees
