import Mathlib.Tactic

/-!
# Actions with a state, exceptions, a log and a bound on loops

An *action* reads an environment, changes a state, writes a log and ends in one of four ways: it
returns, it raises an exception (the state keeps what was done until then), it leaves the modelled
world (`aborted`), or a loop in it used up the bound that the action was run with (`unfinished`).
The log is kept in every case.

The rules of this file say how a compound action runs (`bind_run`, `loopUpTo_succ`) and how it ends
when its first part returned or raised (`ending_bind`, `ending_attempt`).
-/

namespace LuaAdaLoad.Control.Actions

/-- How a run ends. -/
inductive Ending (ε σ α : Type) where
  | done (a : α) (s : σ)
  | raised (e : ε) (s : σ)
  | aborted
  | unfinished

/-- A run: what it logged and how it ended. -/
structure Run (ε σ ω α : Type) where
  log : List ω
  ending : Ending ε σ α

/-- Actions: an environment `ρ`, a bound for loops, and a state `σ`. -/
def Act (ρ ε σ ω α : Type) : Type := ρ → ℕ → σ → Run ε σ ω α

variable {ρ ε σ ω α β : Type}

/-- Continue a run that returned. -/
def Run.andThen (q : Run ε σ ω α) (k : α → σ → Run ε σ ω β) : Run ε σ ω β :=
  match q.ending with
  | .done a s => ⟨q.log ++ (k a s).log, (k a s).ending⟩
  | .raised e s => ⟨q.log, .raised e s⟩
  | .aborted => ⟨q.log, .aborted⟩
  | .unfinished => ⟨q.log, .unfinished⟩

instance : Monad (Act ρ ε σ ω) where
  pure a := fun _ _ s => ⟨[], .done a s⟩
  bind x f := fun r n s => (x r n s).andThen fun a s' => f a r n s'

/-- Read the environment. -/
def ask : Act ρ ε σ ω ρ := fun r _ s => ⟨[], .done r s⟩

/-- Read the state. -/
def get : Act ρ ε σ ω σ := fun _ _ s => ⟨[], .done s s⟩

/-- Change the state. -/
def modify (f : σ → σ) : Act ρ ε σ ω Unit := fun _ _ s => ⟨[], .done () (f s)⟩

/-- Change the state and return a value. -/
def step (f : ρ → σ → α × σ) : Act ρ ε σ ω α := fun r _ s => ⟨[], .done (f r s).1 (f r s).2⟩

/-- Raise an exception. -/
def raise (e : ε) : Act ρ ε σ ω α := fun _ _ s => ⟨[], .raised e s⟩

/-- Leave the modelled world. -/
def abort : Act ρ ε σ ω α := fun _ _ _ => ⟨[], .aborted⟩

/-- Log an event. -/
def note (w : ω) : Act ρ ε σ ω Unit := fun _ _ s => ⟨[w], .done () s⟩

/-- Run an action and change every event it logs. -/
def relabel (f : ω → ω) (x : Act ρ ε σ ω α) : Act ρ ε σ ω α := fun r n s =>
  ⟨(x r n s).log.map f, (x r n s).ending⟩

/-- Run an action; an exception is passed to the handler, in the state in which it was raised. -/
def attempt (x : Act ρ ε σ ω α) (h : ε → Act ρ ε σ ω α) : Act ρ ε σ ω α := fun r n s =>
  match (x r n s).ending with
  | .raised e s' => ⟨(x r n s).log ++ (h e r n s').log, (h e r n s').ending⟩
  | _ => x r n s

/-- `while cond loop body end loop`, at most `k` times round. -/
def loopUpTo (cond : Act ρ ε σ ω Bool) (body : Act ρ ε σ ω Unit) : ℕ → Act ρ ε σ ω Unit
  | 0 => fun _ _ _ => ⟨[], .unfinished⟩
  | k + 1 => do
    if ← cond then
      body
      loopUpTo cond body k

/-- `while cond loop body end loop`, bounded by the bound of the run. -/
def loop (cond : Act ρ ε σ ω Bool) (body : Act ρ ε σ ω Unit) : Act ρ ε σ ω Unit := fun r n s =>
  loopUpTo cond body n r n s

/-! ### Running the basic actions -/

section Basic

variable (r : ρ) (n : ℕ) (s : σ)

@[simp] theorem pure_run (a : α) : (pure a : Act ρ ε σ ω α) r n s = ⟨[], .done a s⟩ := rfl

@[simp] theorem bind_run (x : Act ρ ε σ ω α) (f : α → Act ρ ε σ ω β) :
    (x >>= f) r n s = (x r n s).andThen fun a s' => f a r n s' := rfl

@[simp] theorem ask_run : (ask : Act ρ ε σ ω ρ) r n s = ⟨[], .done r s⟩ := rfl

@[simp] theorem get_run : (get : Act ρ ε σ ω σ) r n s = ⟨[], .done s s⟩ := rfl

@[simp] theorem modify_run (f : σ → σ) :
    (modify f : Act ρ ε σ ω Unit) r n s = ⟨[], .done () (f s)⟩ := rfl

@[simp] theorem raise_run (e : ε) : (raise e : Act ρ ε σ ω α) r n s = ⟨[], .raised e s⟩ := rfl

@[simp] theorem abort_run : (abort : Act ρ ε σ ω α) r n s = ⟨[], .aborted⟩ := rfl

@[simp] theorem note_run (w : ω) : (note w : Act ρ ε σ ω Unit) r n s = ⟨[w], .done () s⟩ := rfl

@[simp] theorem relabel_run (f : ω → ω) (x : Act ρ ε σ ω α) :
    relabel f x r n s = ⟨(x r n s).log.map f, (x r n s).ending⟩ := rfl

@[simp] theorem andThen_done (l : List ω) (a : α) (k : α → σ → Run ε σ ω β) :
    (Run.mk l (.done a s)).andThen k = ⟨l ++ (k a s).log, (k a s).ending⟩ := rfl

@[simp] theorem andThen_raised (l : List ω) (e : ε) (k : α → σ → Run ε σ ω β) :
    (Run.mk l (.raised e s)).andThen k = ⟨l, .raised e s⟩ := rfl

@[simp] theorem andThen_aborted (l : List ω) (k : α → σ → Run ε σ ω β) :
    (Run.mk l (.aborted : Ending ε σ α)).andThen k = ⟨l, .aborted⟩ := rfl

@[simp] theorem andThen_unfinished (l : List ω) (k : α → σ → Run ε σ ω β) :
    (Run.mk l (.unfinished : Ending ε σ α)).andThen k = ⟨l, .unfinished⟩ := rfl

end Basic

/-! ### Taking a run apart -/

variable {r : ρ} {n : ℕ} {s : σ} {x : Act ρ ε σ ω α} {f : α → Act ρ ε σ ω β}

/-- The sequence of a first part that returned and a second part. -/
theorem bind_of_done {l₁ l₂ : List ω} {a : α} {s₁ : σ} {e : Ending ε σ β}
    (hx : x r n s = ⟨l₁, .done a s₁⟩) (hf : f a r n s₁ = ⟨l₂, e⟩) :
    (x >>= f) r n s = ⟨l₁ ++ l₂, e⟩ := by
  rw [bind_run, hx, andThen_done, hf]

/-- The ending of a sequence whose first part returned. -/
theorem ending_bind {a : α} {s₁ : σ} (hx : (x r n s).ending = .done a s₁) :
    ((x >>= f) r n s).ending = (f a r n s₁).ending := by
  rw [bind_run, Run.andThen, hx]

theorem ending_bind_raised {e : ε} {s₁ : σ} (hx : (x r n s).ending = .raised e s₁) :
    ((x >>= f) r n s).ending = .raised e s₁ := by
  rw [bind_run, Run.andThen, hx]

/-- The ending of an action that returned, under a handler. -/
theorem ending_attempt {h : ε → Act ρ ε σ ω α} {a : α} {s₁ : σ}
    (hx : (x r n s).ending = .done a s₁) : (attempt x h r n s).ending = .done a s₁ := by
  rw [attempt, hx, hx]

theorem ending_attempt_raised {h : ε → Act ρ ε σ ω α} {e : ε} {s₁ : σ}
    (hx : (x r n s).ending = .raised e s₁) :
    (attempt x h r n s).ending = (h e r n s₁).ending := by
  rw [attempt, hx]

/-! ### Loops -/

variable {cond : Act ρ ε σ ω Bool} {body : Act ρ ε σ ω Unit}

theorem loop_run : loop cond body r n s = loopUpTo cond body n r n s := rfl

theorem loopUpTo_succ (k : ℕ) : loopUpTo cond body (k + 1) =
    (cond >>= fun b => if b then body >>= fun _ => loopUpTo cond body k else pure ()) := rfl

end LuaAdaLoad.Control.Actions
