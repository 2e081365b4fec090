import LuaAdaLoad.Package.Traversal

/-!
# Processes that tolerate entries of another type

A `Tolerant` process looks at the current entry with `Local` and `Local_Conditional` and handles the
errors of its reads. A read of a value of another type has taken the value off the stack when it
raises, and nothing puts it back: the traversal goes through all entries and leaves the stack as it
was exactly where no read of the process does that (`Tolerates`).
-/

namespace LuaAdaLoad.Package.Tolerance

open LuaAdaLoad.Control.Actions LuaAdaLoad.Control.Weakest LuaAdaLoad.Text.Dotted
open LuaAdaLoad.Text.Strings LuaAdaLoad.Lua.Values LuaAdaLoad.Package.Base
open LuaAdaLoad.Package.Names LuaAdaLoad.Package.Readers LuaAdaLoad.Package.Tables
open LuaAdaLoad.Package.Rules LuaAdaLoad.Package.Client LuaAdaLoad.Package.Traversal

/-- Processes that look at the current entry and handle the errors of their reads; `default` is that
of a conditional read. -/
inductive Tolerant where
  | stop
  | keyType (next : LuaType → Tolerant)
  | valueType (next : LuaType → Tolerant)
  | remember (next : ℕ → Tolerant)
  | keep (m : ℕ) (next : Tolerant)
  | read (kind : Kind) (default : Option kind.Result) (next : Option kind.Result → Tolerant)

/-- `Local`, or `Local_Conditional` with a default. -/
def localReader (kind : Kind) : Option kind.Result → Prog kind.Result
  | none => .read (.ofLocal kind)
  | some d => .read (.ofLocalConditional kind d)

/-- A read whose error is handled. -/
def attemptRead (kind : Kind) (default : Option kind.Result) : Prog (Option kind.Result) :=
  .handle (.bind (localReader kind default) fun a => .pure (some a)) fun _ => .pure none

/-- The program of a process. -/
def Tolerant.prog : Tolerant → Prog Unit
  | .stop => .pure ()
  | .keyType next => .bind (.read .keyType) fun type => (next type).prog
  | .valueType next => .bind (.read .valueType) fun type => (next type).prog
  | .remember next => .bind .remember fun m => (next m).prog
  | .keep m next => .bind (.keep m) fun _ => next.prog
  | .read kind default next => .bind (attemptRead kind default) fun o => (next o).prog

/-- What a reader makes of a value of its type; `none` for a number outside of `Long_Integer`. -/
def resultOf (lua : Interp) : (kind : Kind) → Value → Option kind.Result
  | .float, v => some (numberOf lua v)
  | .integer, v => longIntegerOf (numberOf lua v)
  | .string, v => some (stringOf v)

/-- Every read of the process asks for the type of the value, and can give the value. -/
def Tolerant.Fits (lua : Interp) (k v : Value) : Tolerant → ℕ → Prop
  | .stop, _ => True
  | .keyType next, m => (next k.type).Fits lua k v m
  | .valueType next, m => (next v.type).Fits lua k v m
  | .remember next, m => (next m).Fits lua k v m
  | .keep m next, _ => next.Fits lua k v m
  | .read kind _ next, m => v.type = kind.luaType ∧ (resultOf lua kind v).isSome ∧
      (next (resultOf lua kind v)).Fits lua k v m

/-- The variables of the process after an entry that its reads fit. -/
def Tolerant.memory (lua : Interp) (k v : Value) : Tolerant → ℕ → ℕ
  | .stop, m => m
  | .keyType next, m => (next k.type).memory lua k v m
  | .valueType next, m => (next v.type).memory lua k v m
  | .remember next, m => (next m).memory lua k v m
  | .keep m next, _ => next.memory lua k v m
  | .read kind _ next, m => (next (resultOf lua kind v)).memory lua k v m

/-! ### Reads -/

section Reads

variable {lua : Interp} {n : ℕ} {s : State} {k v : Value} {rest : List Value}

/-- `Local` of a value of its type. -/
theorem ofLocal_fits {kind : Kind} (hs : s.luaState = v :: rest) (ht : v.type = kind.luaType) :
    ((Reader.ofLocal kind).run lua n s).ending =
      (resultOf lua kind v).elim (.raised .constraintError s) fun a => .done a s := by
  have htop : typeAt s.luaState (-1) = kind.luaType := by rw [hs, typeAt_top, ht]
  have hnum : toNumber (-1) lua n s = ⟨[], .done (numberOf lua v) s⟩ := by
    simp [toNumber, stackAt_neg_one, hs]
  cases kind with
  | float =>
    have hrun : localFloat lua n s = _ := localRead_fits lua n s htop
    rw [Reader.run, hrun, hnum]
    rfl
  | integer =>
    have hrun : localInteger lua n s = _ := localRead_fits lua n s htop
    rw [Reader.run, hrun, bind_run, hnum, andThen_done, toLongInteger_run, resultOf]
    cases longIntegerOf (numberOf lua v) <;> rfl
  | string =>
    obtain ⟨str, rfl⟩ := type_eq_string_iff.mp ht
    have hrun : localString lua n s = _ := localRead_fits lua n s htop
    have hstr : toUnboundedString (-1) lua n s = ⟨[], .done str s⟩ := by
      simp [toUnboundedString, stackAt_neg_one, hs]
    rw [Reader.run, hrun, hstr]
    rfl

/-- `Local` of a value of another type takes it off the stack and raises. -/
theorem ofLocal_misfit {kind : Kind} (hs : s.luaState = v :: rest)
    (ht : v.type ≠ kind.luaType) :
    ((Reader.ofLocal kind).run lua n s).ending =
      .raised (.loadError (typeErrorMessage s.nameCode .value kind.luaType []))
        (blamed (dropped s) .value kind.luaType []) := by
  have htop : typeAt s.luaState (-1) ≠ kind.luaType := by rwa [hs, typeAt_top]
  have hne : s.luaState ≠ [] := by simp [hs]
  cases kind with
  | float => exact congrArg Run.ending (localRead_misfit lua n s htop hne)
  | integer => exact congrArg Run.ending (localRead_misfit lua n s htop hne)
  | string => exact congrArg Run.ending (localRead_misfit lua n s htop hne)

/-- `Local` where the stack is empty. -/
theorem ofLocal_empty (kind : Kind) (hs : s.luaState = []) :
    ((Reader.ofLocal kind).run lua n s).ending = .aborted := by
  have hrun : ∀ {α : Type} {expected : LuaType} {convert : Load α}, expected ≠ .none →
      (localRead expected convert lua n s).ending = .aborted := by
    intro α expected convert hne
    rw [localRead_run, if_neg (by rw [hs]; exact hne.symm), if_pos hs]
  cases kind <;> exact hrun (by simp)

/-- The overload of `Local` for `Long_Integer` does what a conversion of the other one does. -/
theorem localFloat_toLongInteger :
    (localFloat >>= toLongInteger) lua n s = localInteger lua n s := by
  rw [bind_run, localFloat, localInteger, localRead_run, localRead_run]
  split_ifs
  · rw [bind_run]
  · rfl
  · rfl

/-- `Local_Conditional` does what `Local` does, but for a nil. -/
theorem ofLocalConditional_run (lua : Interp) (n : ℕ) (kind : Kind) (d : kind.Result)
    (h : typeAt s.luaState (-1) ≠ .nil) :
    (Reader.ofLocalConditional kind d).run lua n s = (Reader.ofLocal kind).run lua n s := by
  cases kind with
  | float => exact localConditional_value lua n s h
  | integer =>
    have hrun : localConditionalFloat (longFloat d) lua n s = localFloat lua n s :=
      localConditional_value lua n s h
    rw [show (Reader.ofLocal .integer).run lua n s = localInteger lua n s from rfl,
      ← localFloat_toLongInteger, bind_run, ← hrun]
    rfl
  | string => exact localConditional_value lua n s h

theorem typeAt_ne_nil (hs : s.luaState = v :: rest) (hv : v ≠ .nil) :
    typeAt s.luaState (-1) ≠ .nil := by
  rw [hs, typeAt_top]
  exact fun h => hv (type_eq_nil_iff.mp h)

/-- A read whose error is handled, of a value of its type. -/
theorem attemptRead_fits (lua : Interp) (n : ℕ) {kind : Kind} (default : Option kind.Result)
    (hs : s.luaState = v :: rest) (hv : v ≠ .nil) (ht : v.type = kind.luaType) :
    ((attemptRead kind default).run lua n s).ending =
      (resultOf lua kind v).elim (.raised .constraintError s) fun a => .done (some a) s := by
  have hlocal : ((localReader kind default).run lua n s).ending =
      (resultOf lua kind v).elim (.raised .constraintError s) fun a => .done a s := by
    cases default with
    | none => exact ofLocal_fits hs ht
    | some d =>
      have hrun := ofLocalConditional_run lua n kind d (typeAt_ne_nil hs hv)
      exact (congrArg Run.ending hrun).trans (ofLocal_fits hs ht)
  cases hr : resultOf lua kind v with
  | none =>
    rw [hr, Option.elim_none] at hlocal
    have hbind : ((Prog.bind (localReader kind default) fun a => .pure (some a)).run
        lua n s).ending = .raised .constraintError s := ending_bind_raised hlocal
    rw [attemptRead, Prog.run, ending_attempt_raised hbind]
    rfl
  | some a =>
    rw [hr, Option.elim_some] at hlocal
    have hbind : ((Prog.bind (localReader kind default) fun a => .pure (some a)).run
        lua n s).ending = .done (some a) s := ending_bind hlocal
    rw [attemptRead, Prog.run, ending_attempt hbind]
    rfl

/-- A read whose error is handled, of a value of another type: the value is gone. -/
theorem attemptRead_misfit {kind : Kind} (default : Option kind.Result)
    (hs : s.luaState = v :: rest) (hv : v ≠ .nil) (ht : v.type ≠ kind.luaType) :
    ((attemptRead kind default).run lua n s).ending =
      .done none (blamed (dropped s) .value kind.luaType []) := by
  have hlocal : ((localReader kind default).run lua n s).ending =
      .raised (.loadError (typeErrorMessage s.nameCode .value kind.luaType []))
        (blamed (dropped s) .value kind.luaType []) := by
    cases default with
    | none => exact ofLocal_misfit hs ht
    | some d =>
      have hrun := ofLocalConditional_run lua n kind d (typeAt_ne_nil hs hv)
      exact (congrArg Run.ending hrun).trans (ofLocal_misfit hs ht)
  have hbind : ((Prog.bind (localReader kind default) fun a => .pure (some a)).run
      lua n s).ending = _ := ending_bind_raised hlocal
  rw [attemptRead, Prog.run, ending_attempt_raised hbind]
  rfl

/-- A `Load_Error` of `Local` or `Local_Conditional` has taken the value off the stack. -/
theorem localReader_raised {kind : Kind} {default : Option kind.Result} {m : UString} {s' : State}
    (h : ((localReader kind default).run lua n s).ending = .raised (.loadError m) s') :
    ∃ v, s.luaState = v :: s'.luaState := by
  have hlocal : ((Reader.ofLocal kind).run lua n s).ending = .raised (.loadError m) s' →
      ∃ v, s.luaState = v :: s'.luaState := by
    intro h
    rcases hs : s.luaState with _ | ⟨v, rest⟩
    · rw [ofLocal_empty kind hs] at h
      simp at h
    · by_cases ht : v.type = kind.luaType
      · rw [ofLocal_fits hs ht] at h
        cases hr : resultOf lua kind v <;> simp [hr] at h
      · rw [ofLocal_misfit hs ht, Ending.raised.injEq] at h
        exact ⟨v, by rw [← h.2]; simp [blamed, dropped, hs]⟩
  cases default with
  | none => exact hlocal h
  | some d =>
    by_cases ht : typeAt s.luaState (-1) = .nil
    · -- a nil gives the default, converted for `Long_Integer`: no `Load_Error`
      have hrun : ∀ {α : Type} {default : α} {orLocal : Load α},
          localConditional default orLocal lua n s = ⟨[], .done default (dropped s)⟩ := by
        intro α default orLocal
        rw [localConditional_run, if_pos ht]; rfl
      cases kind with
      | float =>
        have hend : ((Reader.ofLocalConditional .float d).run lua n s).ending =
            .done d (dropped s) := congrArg Run.ending hrun
        exact absurd (hend.symm.trans h) (by simp)
      | integer =>
        have : ((localConditional (longFloat d) localFloat >>= toLongInteger) lua n s).ending =
            .raised (.loadError m) s' := h
        rw [bind_run, hrun, andThen_done, toLongInteger_run] at this
        cases hl : longIntegerOf (longFloat d) <;> simp [hl] at this
      | string =>
        have hend : ((Reader.ofLocalConditional .string d).run lua n s).ending =
            .done d (dropped s) := congrArg Run.ending hrun
        exact absurd (hend.symm.trans h) (by simp)
    · have hrun := ofLocalConditional_run lua n kind d ht
      exact hlocal ((congrArg Run.ending hrun).symm.trans h)

end Reads

/-! ### Processes -/

section Processes

variable {lua : Interp} {n : ℕ} {k v : Value} {rest : List Value}

theorem ending_keyType (s : State) :
    ((Prog.read .keyType).run lua n s).ending = .done (typeAt s.luaState (-2)) s :=
  congrArg Run.ending (keyType_run lua n s)

theorem ending_valueType (s : State) :
    ((Prog.read .valueType).run lua n s).ending = .done (typeAt s.luaState (-1)) s :=
  congrArg Run.ending (valueType_run lua n s)

/-- A process whose reads fit returns with the stack as it was. -/
theorem Tolerant.run_fits (n : ℕ) (hv : v ≠ .nil) (r : Tolerant) :
    ∀ {s : State}, s.luaState = v :: k :: rest → r.Fits lua k v s.memory →
      (r.prog.run lua n s).ending = .done () { s with memory := r.memory lua k v s.memory } := by
  induction r with
  | stop => intro s _ _; rfl
  | keyType next ih =>
    intro s hs hfit
    have htype : typeAt s.luaState (-2) = k.type := by rw [hs]; rfl
    rw [Tolerant.prog, Prog.run, ending_bind (ending_keyType s), htype]
    exact ih _ hs hfit
  | valueType next ih =>
    intro s hs hfit
    have htype : typeAt s.luaState (-1) = v.type := by rw [hs]; rfl
    rw [Tolerant.prog, Prog.run, ending_bind (ending_valueType s), htype]
    exact ih _ hs hfit
  | remember next ih => intro s hs hfit; exact ih _ hs hfit
  | keep m next ih => intro s hs hfit; exact ih (s := { s with memory := m }) hs hfit
  | read kind default next ih =>
    intro s hs hfit
    obtain ⟨ht, hsome, hfit⟩ := hfit
    obtain ⟨a, ha⟩ := Option.isSome_iff_exists.mp hsome
    have hread := attemptRead_fits lua n default hs hv ht
    rw [ha, Option.elim_some] at hread
    rw [Tolerant.prog, Prog.run, ending_bind hread, Tolerant.memory, ha]
    rw [ha] at hfit
    exact ih _ hs hfit

/-- A stack of at most `N` values, and no `Load_Error`. -/
def lowPost (α : Type) (N : ℕ) : Post Exn State Event α where
  done _ _ s := s.luaState.length ≤ N
  raised e _ _ := e = .constraintError
  stopped _ := True

variable {N : ℕ} {path : List Element} {h : List Event} {s : State}

/-- No reader pushes anything. -/
theorem wp_read_low (c : Reader) (hs : s.luaState.length ≤ N) :
    wp lua n (under path) (Prog.read c).run ⟨fun _ _ s' => s'.luaState.length ≤ N,
      fun e _ s' => e = .constraintError ∨ s'.luaState.length ≤ N, fun _ => True⟩ h s := by
  have hdrop : ∀ {P : Prop} {t : State}, t = s ∨ P ∧ t = dropped s → t.luaState.length ≤ N := by
    rintro P t (rfl | ⟨-, rfl⟩)
    · exact hs
    · simp only [dropped, List.length_tail]
      omega
  refine wp_read c (fun _ _ _ _ hs' => hdrop hs') (fun target expected name t ht => ?_)
    (fun _ _ _ _ _ => .inl rfl) trivial
  exact .inr (hdrop (t := t) ht)

theorem wp_attemptRead_low {kind : Kind} (default : Option kind.Result)
    (hs : s.luaState.length ≤ N) :
    wp lua n (under path) (attemptRead kind default).run (lowPost _ N) h s := by
  have hlocal : ∀ {Q : Post Exn State Event kind.Result} {h},
      (∀ a h s, s.luaState.length ≤ N → Q.done a h s) →
      (∀ e h s, e = .constraintError ∨ s.luaState.length ≤ N → Q.raised e h s) →
      (∀ h, Q.stopped h) → wp lua n (under path) (localReader kind default).run Q h s := by
    intro Q h hd he hst
    cases default <;> exact wp_mono (wp_read_low _ hs) hd he fun h _ => hst h
  refine wp_handle ?_
  change wp lua n (under path) ((localReader kind default).run >>= fun a => pure (some a)) _ h s
  rw [wp_bind]
  refine hlocal (fun a h s hs => ?_) (fun e h s he => ?_) fun _ => trivial
  · simpa [lowPost] using hs
  · cases e with
    | loadError m =>
      have hs' := he.resolve_left (by simp)
      simpa [Prog.run, lowPost] using hs'
    | constraintError => rfl

/-- No process pushes anything, or lets a `Load_Error` out. -/
theorem Tolerant.wp_low (r : Tolerant) : ∀ {h : List Event} {s : State},
    s.luaState.length ≤ N → wp lua n (under path) r.prog.run (lowPost Unit N) h s := by
  induction r with
  | stop => intro h s hs; simpa [Tolerant.prog, Prog.run, lowPost] using hs
  | keyType next ih =>
    intro h s hs
    rw [Tolerant.prog, Prog.run, wp_bind, wp_of_ending (ending_keyType s)]
    exact ih _ hs
  | valueType next ih =>
    intro h s hs
    rw [Tolerant.prog, Prog.run, wp_bind, wp_of_ending (ending_valueType s)]
    exact ih _ hs
  | remember next ih =>
    intro h s hs
    have hread : (Prog.remember.run lua n s).ending = .done s.memory s := rfl
    rw [Tolerant.prog, Prog.run, wp_bind, wp_of_ending hread]
    exact ih _ hs
  | keep m next ih =>
    intro h s hs
    rw [Tolerant.prog, Prog.run, wp_bind, Prog.run, wp_modify]
    exact ih hs
  | read kind default next ih =>
    intro h s hs
    rw [Tolerant.prog, Prog.run, wp_bind]
    exact wp_mono (wp_attemptRead_low default hs) (fun o h s hs => ih o hs) (fun _ _ _ he => he)
      fun _ _ => trivial

/-- A process with a read that does not fit returns with less on the stack, if it returns. -/
theorem Tolerant.wp_misfit (hv : v ≠ .nil) (r : Tolerant) : ∀ {h : List Event} {s : State},
    s.luaState = v :: k :: rest → ¬ r.Fits lua k v s.memory →
      wp lua n (under path) r.prog.run (lowPost Unit (k :: rest).length) h s := by
  induction r with
  | stop => intro h s _ hfit; exact absurd trivial hfit
  | keyType next ih =>
    intro h s hs hfit
    have htype : typeAt s.luaState (-2) = k.type := by rw [hs]; rfl
    rw [Tolerant.prog, Prog.run, wp_bind, wp_of_ending (ending_keyType s), htype]
    exact ih _ hs hfit
  | valueType next ih =>
    intro h s hs hfit
    have htype : typeAt s.luaState (-1) = v.type := by rw [hs]; rfl
    rw [Tolerant.prog, Prog.run, wp_bind, wp_of_ending (ending_valueType s), htype]
    exact ih _ hs hfit
  | remember next ih =>
    intro h s hs hfit
    have hread : (Prog.remember.run lua n s).ending = .done s.memory s := rfl
    rw [Tolerant.prog, Prog.run, wp_bind, wp_of_ending hread]
    exact ih _ hs hfit
  | keep m next ih =>
    intro h s hs hfit
    rw [Tolerant.prog, Prog.run, wp_bind, Prog.run, wp_modify]
    exact ih (s := { s with memory := m }) hs hfit
  | read kind default next ih =>
    intro h s hs hfit
    rw [Tolerant.prog, Prog.run, wp_bind]
    by_cases ht : v.type = kind.luaType
    · have hread := attemptRead_fits lua n default hs hv ht
      rw [wp_of_ending hread]
      cases ha : resultOf lua kind v with
      | none => rfl
      | some a => exact ih _ hs fun hf => hfit ⟨ht, by simp [ha], by rwa [ha]⟩
    · rw [wp_of_ending (attemptRead_misfit default hs hv ht)]
      exact (next none).wp_low (by simp [blamed, dropped, hs])

end Processes

/-! ### Traversals -/

/-- The component of a key can be added to the path and taken away. -/
def KeyFits (c : UString) (d : ℕ) (k : Value) : Prop :=
  (∀ x, k = .number x → (integerOf x).isSome) ∧
    ∀ name, component k = some name → d < naturalLast ∧ extend '.' c name ≠ []

/-- The path after the entry of a key. -/
def pathAfter (c : UString) (k : Value) : UString :=
  (component k).elim c fun name => cutLast '.' (extend '.' c name)

/-- The process tolerates the entries: every key can be named, and every read asks for the type of
the value of its entry. -/
def Tolerates (lua : Interp) (r : Tolerant) :
    UString → ℕ → ℕ → List (Value × Value) → Prop
  | _, _, _, [] => True
  | c, d, m, (k, v) :: es => KeyFits c d k ∧ r.Fits lua k v m ∧
      Tolerates lua r (pathAfter c k) d (r.memory lua k v m) es

section Traversals

variable {lua : Interp} {n : ℕ} {r : Tolerant} {t : TableRef} {rest : List Value}
variable {h : List Event} {s u : State}

theorem keyFits_iff {k : Value} :
    KeyFits u.nameCode u.nameDepth k ↔ Namable u k ∧ Removable (entered u k) k := by
  cases k with
  | number x =>
    cases hx : integerOf x with
    | none => simp [KeyFits, Namable, hx]
    | some i => simp [KeyFits, Namable, Removable, entered, opened, component, hx]
  | string name => simp [KeyFits, Namable, Removable, entered, opened, component]
  | _ => simp [KeyFits, Namable, Removable, component]

/-- The state after the round of an entry that the process tolerates. -/
theorem round_state (u : State) (k : Value) (m : ℕ) :
    (left { entered u k with memory := m } k).nameCode = pathAfter u.nameCode k ∧
      (left { entered u k with memory := m } k).nameDepth = u.nameDepth ∧
        (left { entered u k with memory := m } k).memory = m := by
  cases hk : component k <;> simp [left, entered, hk, pathAfter, closed, opened]

theorem entered_memory (u : State) (k : Value) : (entered u k).memory = u.memory := by
  unfold entered; cases component k <;> rfl

/-- A traversal by such a process never leaves more on the stack than there was below its key. -/
theorem loop_low {N fuel : ℕ} {path : List Element} (hu : u.luaState.length ≤ N) :
    wp lua n (under path) (loopUpTo (next (-2)) (iterateBody s r.prog.run) fuel)
      ⟨fun _ _ s' => s'.luaState.length < N, fun _ _ _ => True, fun _ => True⟩ h u := by
  refine wp_loopUpTo (L := fun _ u => u.luaState.length ≤ N) (fun _ _ _ => trivial) ?_ fuel hu
  intro h u hL
  refine wp_next trivial ?_ ?_
  · intro key t rest hu _
    rw [hu] at hL
    simpa using hL
  · intro key t rest k v hu _
    rw [hu] at hL
    have hlen : (v :: k :: Value.table t :: rest).length ≤ N + 1 := by simpa using hL
    simp only [if_true]
    refine wp_iterateBody rfl (fun _ _ => trivial) fun _ => ?_
    refine wp_mono (r.wp_low (N := N + 1) (by rw [entered_luaState]; exact hlen)) ?_ ?_
      fun _ _ => trivial
    · intro _ h₁ t₁ hlow
      refine ⟨fun _ _ => ?_, fun _ _ => trivial, fun _ _ => trivial⟩
      simp only [lowPost] at hlow
      simp only [dropped, left_luaState, List.length_tail]
      omega
    · rintro e h₁ t₁ rfl
      trivial

/-- A traversal that gives the stack back has met no read that does not fit. -/
theorem tolerates_of_loop (fuel : ℕ) (path : List Element) :
    ∀ (pre post : List (Value × Value)) {h : List Event} {u : State},
      (lua.tables t).entries = pre ++ post →
    u.luaState = lastKey pre :: .table t :: rest →
    wp lua n (under path) (loopUpTo (next (-2)) (iterateBody s r.prog.run) fuel)
      ⟨fun _ _ s' => (Value.table t :: rest).length ≤ s'.luaState.length →
        Tolerates lua r u.nameCode u.nameDepth u.memory post, fun _ _ _ => True,
        fun _ => True⟩ h u := by
  induction fuel with
  | zero => intro pre post h u _ _; trivial
  | succ fuel ih =>
    rintro pre (_ | ⟨⟨k, v⟩, post⟩) h u hes hu
    · exact wp_of_history (fun _ _ _ _ => trivial) (fun _ _ _ => trivial) fun _ => trivial
    · have hnext := Table.next_lastKey hes
      have hv : v ≠ .nil := (lua.tables t).values_valid (k, v) (by rw [hes]; simp)
      rw [loopUpTo_succ, wp_bind, wp_of_run (next_more hu hnext)]
      set u₁ : State := { u with luaState := v :: k :: .table t :: rest } with hu₁
      simp only [Post.Holds, if_true]
      rw [wp_bind]
      refine wp_iterateBody (k := k) rfl (fun _ _ => trivial) fun hname => ?_
      by_cases hfit : r.Fits lua k v u.memory
      · have hmem : (entered u₁ k).memory = u.memory := entered_memory u₁ k
        have hrun := Tolerant.run_fits n hv r (s := entered u₁ k)
          (entered_luaState u₁ k) (by rwa [hmem])
        rw [hmem] at hrun
        rw [wp_of_ending hrun]
        refine ⟨fun hrem _ => ?_, fun _ _ => trivial, fun _ _ => trivial⟩
        obtain ⟨hcode, hdepth, hmemory⟩ := round_state u₁ k (r.memory lua k v u.memory)
        refine wp_mono (ih (pre ++ [(k, v)]) post (by rw [hes]; simp) ?_) ?_
          (fun _ _ _ _ => trivial) fun _ _ => trivial
        · rw [lastKey_append]
          simp [dropped, hu₁]
        · intro _ h₂ s' htol hlen
          have htol := htol hlen
          simp only [dropped, hcode, hdepth, hmemory] at htol
          exact ⟨keyFits_iff (u := u₁).mpr ⟨hname, hrem⟩, hfit, htol⟩
      · -- the value is gone, and what is below it is never given back
        have hmem : (entered u₁ k).memory = u.memory := entered_memory u₁ k
        refine wp_mono (Tolerant.wp_misfit hv r (entered_luaState u₁ k) (by rwa [hmem])) ?_ ?_
          fun _ _ => trivial
        · intro _ h₁ t₁ hlow
          refine ⟨fun _ _ => ?_, fun _ _ => trivial, fun _ _ => trivial⟩
          refine wp_mono (loop_low (N := (Value.table t :: rest).length) ?_) ?_
            (fun _ _ _ _ => trivial) fun _ _ => trivial
          · simp only [lowPost, List.length_cons] at hlow
            simp only [dropped, left_luaState, List.length_tail, List.length_cons]
            omega
          · intro _ h₂ s' hlt hle
            exact absurd hle (not_le.mpr hlt)
        · rintro e h₁ t₁ rfl
          trivial

/-- A traversal by a process that tolerates the entries goes through all of them. -/
theorem loop_of_tolerates : ∀ (post pre : List (Value × Value)) {fuel : ℕ} {h : List Event}
    {u : State}, (lua.tables t).entries = pre ++ post → post.length < fuel →
    u.luaState = lastKey pre :: .table t :: rest →
    Tolerates lua r u.nameCode u.nameDepth u.memory post →
    wp lua n (under []) (loopUpTo (next (-2)) (iterateBody s r.prog.run) fuel)
      ⟨fun _ h' s' => visits h' = visits h ++ post.map (fun e => e.2 :: e.1 :: .table t :: rest) ∧
        s'.luaState = .table t :: rest, fun _ _ _ => False, fun _ => False⟩ h u := by
  intro post
  induction post with
  | nil =>
    intro pre fuel h u hes hfuel hu _
    obtain ⟨fuel, rfl⟩ : ∃ f, fuel = f + 1 := ⟨fuel - 1, by simp at hfuel; omega⟩
    rw [loopUpTo_succ, wp_bind, wp_of_run (next_end hu (Table.next_lastKey hes))]
    simp [Post.Holds]
  | cons e post ih =>
    obtain ⟨k, v⟩ := e
    intro pre fuel h u hes hfuel hu htol
    obtain ⟨hkey, hfit, htol⟩ := htol
    obtain ⟨fuel, rfl⟩ : ∃ f, fuel = f + 1 := ⟨fuel - 1, by simp at hfuel; omega⟩
    have hv : v ≠ .nil := (lua.tables t).values_valid (k, v) (by rw [hes]; simp)
    rw [loopUpTo_succ, wp_bind, wp_of_run (next_more hu (Table.next_lastKey hes))]
    set u₁ : State := { u with luaState := v :: k :: .table t :: rest } with hu₁
    obtain ⟨hname, hrem⟩ := (keyFits_iff (u := u₁)).mp hkey
    simp only [Post.Holds, if_true]
    rw [wp_bind]
    refine wp_iterateBody (k := k) rfl (fun hno => absurd hname hno) fun _ => ?_
    have hmem : (entered u₁ k).memory = u.memory := entered_memory u₁ k
    have hrun := Tolerant.run_fits n hv r (s := entered u₁ k)
      (entered_luaState u₁ k) (by rwa [hmem])
    rw [hmem] at hrun
    rw [wp_of_ending hrun]
    obtain ⟨hcode, hdepth, hmemory⟩ := round_state u₁ k (r.memory lua k v u.memory)
    refine ⟨fun _ _ => ?_, fun _ hnil => ?_, fun hno => absurd hrem hno⟩
    · refine wp_mono (ih (pre ++ [(k, v)]) (by rw [hes]; simp)
        (by simpa using hfuel) ?_ ?_) ?_ (fun _ _ _ he => he) fun _ ht => ht
      · rw [lastKey_append]
        simp [dropped, hu₁]
      · simpa only [dropped, hcode, hdepth, hmemory] using htol
      · rintro _ h₂ s' ⟨hvis, hstack⟩
        refine ⟨?_, hstack⟩
        rw [hvis]
        simp only [visits_append, under_nil_map, visits_naming, visits_removal, visits_under,
          List.nil_append, List.append_nil, List.map_cons]
        simp [visits, hu₁]
    · simp [hu₁] at hnil

end Traversals

/-- Read every value as a string, and go on where it is none. -/
def readStrings : Tolerant := .read .string none fun _ => .stop

end LuaAdaLoad.Package.Tolerance
