import LuaAdaLoad.Package.FieldReads
import LuaAdaLoad.Package.Traversal

/-!
# Sessions

A session opens tables, reads fields and closes the tables again; its caller handles `Load_Error`
and goes on. As long as every `Table_Start` finds a table, the stack, the path and the depth agree
(`Coherent`): the value on top is the table that the path leads to. A `Table_Start` on anything else
leaves that value on the stack, and the three no longer agree.
-/

namespace LuaAdaLoad.Package.Sessions

open LuaAdaLoad.Control.Actions LuaAdaLoad.Text.Dotted LuaAdaLoad.Text.Strings
open LuaAdaLoad.Lua.Values LuaAdaLoad.Package.Base LuaAdaLoad.Package.Names
open LuaAdaLoad.Package.Readers LuaAdaLoad.Package.Tables LuaAdaLoad.Package.Rules
open LuaAdaLoad.Package.Client LuaAdaLoad.Package.Traversal LuaAdaLoad.Package.FieldReads

/-- The calls of a session. -/
inductive Op where
  | tableStart (name : UString)
  | tableEnd
  | read (r : FieldRead)

/-- One call, from a number of `Table_Start`s not yet ended and a state: the caller goes on where the
call returned, or raised `Load_Error`; it calls `Table_End` only where a table is open. -/
def step (lua : Interp) (n : ℕ) : Op → ℕ × State → Option (ℕ × State)
  | .tableStart name, (k, s) =>
    match (Tables.tableStart name lua n s).ending with
    | .done _ s' => some (k + 1, s')
    | .raised (.loadError _) s' => some (k, s')
    | _ => none
  | .tableEnd, (k, s) =>
    if k = 0 then none
    else match (Tables.tableEnd lua n s).ending with
      | .done _ s' => some (k - 1, s')
      | .raised (.loadError _) s' => some (k, s')
      | _ => none
  | .read r, (k, s) =>
    match (r.run lua n s).ending with
    | .done _ s' => some (k, s')
    | .raised (.loadError _) s' => some (k, s')
    | _ => none

/-- The state after a session, if the caller can get there. -/
def after (lua : Interp) (n : ℕ) (s₀ : State) (ops : List Op) : Option (ℕ × State) :=
  ops.foldl (fun o op => o.bind (step lua n op)) (some (0, s₀))

/-- The table that a list of components leads to. -/
def follow (lua : Interp) (r : TableRef) (names : List UString) : Option TableRef :=
  names.foldl (fun o name => o.bind fun t =>
    match (lua.tables t).field (.string name) with
    | .table u => some u
    | _ => none) (some r)

/-- Stack, path and depth agree: the table that the path leads to is on top, and as many entries as
the depth says are above `r`, one for each `Table_Start` that is not yet ended. -/
def Coherent (lua : Interp) (r : TableRef) (base : List Value) (k : ℕ) (s : State) : Prop :=
  (∃ t, follow lua r (components '.' s.nameCode) = some t ∧ s.luaState.head? = some (.table t)) ∧
    (∃ above, s.luaState = above ++ .table r :: base ∧ above.length = s.nameDepth) ∧
      s.nameDepth = k

/-- The field that a `Table_Start` looks up is a table. -/
def FindsTable (lua : Interp) (name : UString) (s : State) : Prop :=
  ∃ t u rest, s.luaState = .table t :: rest ∧ (lua.tables t).field (.string name) = .table u

section Invariant

variable {lua : Interp} {n : ℕ} {r : TableRef} {base : List Value} {k : ℕ} {s s' : State}

/-- The stack on which the tables of the components are open, above `r`. -/
inductive Opened (lua : Interp) (r : TableRef) (base : List Value) :
    List UString → List Value → Prop
  | root : Opened lua r base [] (.table r :: base)
  | start {names : List UString} {t u : TableRef} {rest : List Value} {name : UString}
      (h : Opened lua r base names (.table t :: rest)) (hname : Plain '.' name)
      (hu : (lua.tables t).field (.string name) = .table u) :
      Opened lua r base (names ++ [name]) (.table u :: .table t :: rest)

theorem Opened.facts {names : List UString} {stack : List Value} (h : Opened lua r base names stack) :
    (∀ x ∈ names, Plain '.' x) ∧ (∃ t, follow lua r names = some t ∧ stack.head? = some (.table t)) ∧
      ∃ above, stack = above ++ .table r :: base ∧ above.length = names.length := by
  induction h with
  | root => exact ⟨by simp, ⟨r, rfl, rfl⟩, [], rfl, rfl⟩
  | @start names t u rest name h hname hu ih =>
    obtain ⟨hplain, ⟨t', hfollow, htop⟩, above, hstack, hlen⟩ := ih
    obtain rfl : t = t' := by simpa using htop
    refine ⟨?_, ⟨u, ?_, rfl⟩, .table u :: above, ?_, by simp [hlen]⟩
    · intro x hx
      rcases List.mem_append.mp hx with hx | hx
      · exact hplain x hx
      · rw [List.mem_singleton.mp hx]; exact hname
    · rw [follow, List.foldl_append, List.foldl_cons, List.foldl_nil]
      rw [follow] at hfollow
      rw [hfollow, Option.bind_some, hu]
    · rw [List.cons_append, ← hstack]

/-- The invariant of a session: the open components, their tables, and the depth. -/
def Invariant (lua : Interp) (r : TableRef) (base : List Value) (k : ℕ) (s : State) : Prop :=
  ∃ names, Opened lua r base names s.luaState ∧ s.nameCode = joined '.' names ∧
    s.nameDepth = names.length ∧ k = names.length

theorem Invariant.coherent (h : Invariant lua r base k s) : Coherent lua r base k s := by
  obtain ⟨names, hopen, hcode, hdepth, rfl⟩ := h
  obtain ⟨hplain, htop, above, hstack, hlen⟩ := hopen.facts
  refine ⟨?_, ⟨above, hstack, by rw [hlen, hdepth]⟩, hdepth⟩
  rw [hcode, components_joined hplain]
  exact htop

theorem Invariant.sameLoader (h : Invariant lua r base k s) (hs : SameLoader s s') :
    Invariant lua r base k s' := by
  obtain ⟨names, hopen, hcode, hdepth, hk⟩ := h
  exact ⟨names, hs.1 ▸ hopen, hs.2.1.trans hcode, hs.2.2.1.trans hdepth, hk⟩

/-- A `Table_Start` that finds a table keeps the invariant. -/
theorem Invariant.tableStart (h : Invariant lua r base k s) {name : UString} {ks' : ℕ × State}
    (hname : Plain '.' name) (hfinds : FindsTable lua name s)
    (hstep : step lua n (.tableStart name) (k, s) = some ks') :
    Invariant lua r base ks'.1 ks'.2 := by
  obtain ⟨names, hopen, hcode, hdepth, rfl⟩ := h
  obtain ⟨t, u, rest, hs, hu⟩ := hfinds
  simp only [step] at hstep
  by_cases hd : s.nameDepth < naturalLast
  · simp only [tableStart_ok hs hu hd, Option.some.injEq] at hstep
    rw [← hstep]
    refine ⟨names ++ [name], ?_, ?_, ?_, by simp⟩
    · simp only [opened, pushed, hs]
      exact .start (hs ▸ hopen) hname hu
    · rw [joined_append, ← hcode]; rfl
    · simp [opened, pushed, hdepth]
  · obtain ⟨s', hs'⟩ := tableStart_deep lua n hs hu hd
    simp [hs'] at hstep

/-- A `Table_End` keeps the invariant. -/
theorem Invariant.tableEnd (h : Invariant lua r base k s) {ks' : ℕ × State}
    (hstep : step lua n .tableEnd (k, s) = some ks') : Invariant lua r base ks'.1 ks'.2 := by
  obtain ⟨names, hopen, hcode, hdepth, rfl⟩ := h
  simp only [step] at hstep
  split_ifs at hstep with hk
  generalize hstack : s.luaState = stack at hopen
  cases hopen with
  | root => exact absurd rfl hk
  | @start names t u rest name hrest hname hu =>
    have htop : typeAt s.luaState (-1) = .table := by rw [hstack]; rfl
    have hne : s.nameCode ≠ [] := by
      rw [hcode, joined_append]; exact extend_ne_nil hname.1
    have hd : s.nameDepth ≠ 0 := by simp [hdepth]
    simp only [tableEnd_ok htop hne hd, Option.some.injEq] at hstep
    rw [← hstep]
    refine ⟨names, ?_, ?_, ?_, by simp⟩
    · simpa [dropped, closed, hstack] using hrest
    · simp only [dropped, closed, hcode, cutLast_joined hname]
    · simp [dropped, closed, hdepth]

theorem Invariant.read (h : Invariant lua r base k s) {f : FieldRead} {ks' : ℕ × State}
    (hstep : step lua n (.read f) (k, s) = some ks') : Invariant lua r base ks'.1 ks'.2 := by
  have hopen := h
  obtain ⟨names, hopen, -⟩ := hopen
  obtain ⟨-, ⟨t, -, htop⟩, -⟩ := hopen.facts
  obtain ⟨rest, hs⟩ : ∃ rest, s.luaState = .table t :: rest := by
    cases hs : s.luaState with
    | nil => simp [hs] at htop
    | cons v rest =>
      obtain rfl : v = .table t := by simpa [hs] using htop
      exact ⟨rest, rfl⟩
  obtain ⟨-, hsame⟩ := fieldRead_gives n f hs
  simp only [step] at hstep
  rcases hrun : (f.run lua n s).ending with ⟨a, s'⟩ | ⟨⟨m⟩ | _, s'⟩ | _ | _ <;>
    rw [hrun] at hstep hsame <;> simp only [reduceCtorEq, Option.some.injEq] at hstep
  · exact hstep ▸ h.sameLoader hsame
  · exact hstep ▸ h.sameLoader hsame

/-- A `Table_Start` on anything but a table leaves the value that it found on the stack. -/
theorem not_coherent_of_fails {name : UString} (hc : Coherent lua r base k s)
    (hfinds : ¬ FindsTable lua name s) :
    ∃ s', step lua n (.tableStart name) (k, s) = some (k, s') ∧ ¬ Coherent lua r base k s' := by
  obtain ⟨⟨t, -, htop⟩, ⟨above, hstack, hlen⟩, -⟩ := hc
  obtain ⟨rest, hs⟩ : ∃ rest, s.luaState = .table t :: rest := by
    cases hs : s.luaState with
    | nil => simp [hs] at htop
    | cons v rest =>
      obtain rfl : v = .table t := by simpa [hs] using htop
      exact ⟨rest, rfl⟩
  have ht : ((lua.tables t).field (.string name)).type ≠ .table := fun ht => by
    obtain ⟨u, hu⟩ := type_eq_table_iff.mp ht
    exact hfinds ⟨t, u, rest, hs, hu⟩
  refine ⟨blamed (pushed s ((lua.tables t).field (.string name))) .value .table name,
    by simp only [step, tableStart_fails hs rfl ht], ?_⟩
  rintro ⟨-, ⟨above', hstack', hlen'⟩, -⟩
  have h₁ := congrArg List.length hstack
  have h₂ := congrArg List.length hstack'
  simp only [blamed, pushed, List.length_cons, List.length_append] at h₁ h₂ hlen'
  omega

end Invariant

/-! ### Runs -/

section Runs

variable {lua : Interp} {n : ℕ} {s₀ : State}

theorem after_snoc (ops : List Op) (op : Op) :
    after lua n s₀ (ops ++ [op]) = (after lua n s₀ ops).bind (step lua n op) := by
  simp [after]

/-- The names that a session opens are not empty and hold no dot. -/
def PlainNames (ops : List Op) : Prop :=
  ∀ name, Op.tableStart name ∈ ops → Plain '.' name

/-- Every `Table_Start` of a session is made where the field is a table. -/
def AllFind (lua : Interp) (n : ℕ) (s₀ : State) (ops : List Op) : Prop :=
  ∀ pre name, pre ++ [.tableStart name] <+: ops →
    ∀ ks, after lua n s₀ pre = some ks → FindsTable lua name ks.2

theorem invariant_after {r : TableRef} {base : List Value} (hs : s₀.luaState = .table r :: base)
    (hcode : s₀.nameCode = []) (hdepth : s₀.nameDepth = 0) {ops : List Op} (hops : PlainNames ops)
    (hfind : AllFind lua n s₀ ops) :
    ∀ {ks : ℕ × State}, after lua n s₀ ops = some ks → Invariant lua r base ks.1 ks.2 := by
  induction ops using List.reverseRecOn with
  | nil =>
    intro ks hks
    obtain rfl : (0, s₀) = ks := by simpa [after] using hks
    exact ⟨[], hs ▸ .root, hcode, hdepth, rfl⟩
  | append_singleton ops op ih =>
    intro ks hks
    rw [after_snoc] at hks
    obtain ⟨⟨k, s⟩, hpre, hstep⟩ := Option.bind_eq_some_iff.mp hks
    have hinv := ih (fun name hname => hops name (List.mem_append_left _ hname))
      (fun pre name hp => hfind pre name (hp.trans (List.prefix_append _ _))) hpre
    cases op with
    | tableStart name =>
      exact hinv.tableStart (hops name (by simp)) (hfind ops name (List.prefix_refl _) _ hpre) hstep
    | tableEnd => exact hinv.tableEnd hstep
    | read f => exact hinv.read hstep

/-- **Sessions are coherent** exactly where every `Table_Start` finds a table. -/
theorem coherent_iff {r : TableRef} {base : List Value} (hs : s₀.luaState = .table r :: base)
    (hcode : s₀.nameCode = []) (hdepth : s₀.nameDepth = 0) {ops : List Op}
    (hops : PlainNames ops) :
    (∀ pre ks, pre <+: ops → after lua n s₀ pre = some ks → Coherent lua r base ks.1 ks.2) ↔
      AllFind lua n s₀ ops := by
  constructor
  · intro hcoh pre name hpre ks hks
    by_contra hno
    have hc := hcoh pre ks ((List.prefix_append _ _).trans hpre) hks
    obtain ⟨s', hstep, hnc⟩ := not_coherent_of_fails (n := n) hc hno
    exact hnc (hcoh _ (ks.1, s') hpre (by rw [after_snoc, hks]; exact hstep))
  · intro hfind pre ks hpre hks
    refine (invariant_after hs hcode hdepth (fun name hname => hops name (hpre.subset hname))
      (fun pre' name hp => hfind pre' name (hp.trans hpre)) hks).coherent

end Runs

/-- Open a table, try to read a field of it, close it. -/
def visit : List Op := [.tableStart "a".toList, .read ⟨.named "x".toList, .float, none⟩, .tableEnd]

theorem coherent_iff_visit :
    (∀ pre ks, pre <+: visit → after nestedTables 0 (session 0) pre = some ks →
      Coherent nestedTables 0 [] ks.1 ks.2) ↔ AllFind nestedTables 0 (session 0) visit :=
  coherent_iff rfl rfl rfl (by
    intro name hname
    obtain rfl : name = "a".toList := by simpa [visit] using hname
    decide)

/-- The state after a `Table_Start` on a field that is a truth value. -/
def afterStray : State :=
  ⟨[.boolean true, .table 0], 0, [], [], "b: value: not a table".toList, 0⟩

/-- The truth value is on top, where the table of the empty path should be. -/
theorem not_coherent_stray :
    after nestedTables 0 (session 0) [.tableStart "b".toList] = some (0, afterStray) ∧
      ¬ Coherent nestedTables 0 [] 0 afterStray :=
  ⟨rfl, fun h => by
    obtain ⟨⟨t, -, htop⟩, -⟩ := h
    simp [afterStray] at htop⟩

end LuaAdaLoad.Package.Sessions
