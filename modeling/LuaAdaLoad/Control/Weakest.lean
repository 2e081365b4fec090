import LuaAdaLoad.Control.Actions

/-!
# Weakest preconditions of actions

Assertions speak about a state and about the events logged so far, the *history*. `wp r n f x Q h s`
says that the run of `x` from the state `s`, with the history `h`, ends as `Q` asserts; the events
of the run enter the history under the renaming `f`. A run may end in three ways that an assertion
`Q : Post` tells apart: it returns, it raises, or it stops (it leaves the modelled world, or its
loops are not done).

There is one equation for each way of composing actions (`wp_bind`, `wp_attempt`, `wp_relabel`), the
rule of consequence `wp_mono`, and the invariant rule `wp_loop`.
-/

namespace LuaAdaLoad.Control.Weakest

open LuaAdaLoad.Control.Actions

variable {ρ ε σ ω α β : Type}

/-- What is asserted of the end of a run: of a return, of an exception, of a stop. -/
structure Post (ε σ ω α : Type) where
  done : α → List ω → σ → Prop
  raised : ε → List ω → σ → Prop
  stopped : List ω → Prop

/-- The assertion holds of a history and an ending. -/
def Post.Holds (Q : Post ε σ ω α) (h : List ω) : Ending ε σ α → Prop
  | .done a s => Q.done a h s
  | .raised e s => Q.raised e h s
  | .aborted => Q.stopped h
  | .unfinished => Q.stopped h

/-- The run of an action ends as asserted. -/
def wp (r : ρ) (n : ℕ) (f : ω → ω) (x : Act ρ ε σ ω α) (Q : Post ε σ ω α) (h : List ω) (s : σ) :
    Prop :=
  Q.Holds (h ++ (x r n s).log.map f) (x r n s).ending

variable {r : ρ} {n : ℕ} {f : ω → ω} {Q : Post ε σ ω α} {h : List ω} {s : σ}

theorem wp_of_run {x : Act ρ ε σ ω α} {l : List ω} {e : Ending ε σ α} (hx : x r n s = ⟨l, e⟩) :
    wp r n f x Q h s ↔ Q.Holds (h ++ l.map f) e := by
  rw [wp, hx]

theorem wp_of_ending {x : Act ρ ε σ ω α} {e : Ending ε σ α} (hx : (x r n s).ending = e) :
    wp r n f x Q h s ↔ Q.Holds (h ++ (x r n s).log.map f) e := by
  rw [wp, hx]

@[simp] theorem wp_pure (a : α) : wp r n f (pure a) Q h s ↔ Q.done a h s := by
  simp [wp, Post.Holds]

@[simp] theorem wp_get {Q : Post ε σ ω σ} : wp r n f get Q h s ↔ Q.done s h s := by
  simp [wp, Post.Holds]

@[simp] theorem wp_ask {Q : Post ε σ ω ρ} : wp r n f ask Q h s ↔ Q.done r h s := by
  simp [wp, Post.Holds]

@[simp] theorem wp_modify {Q : Post ε σ ω Unit} (g : σ → σ) :
    wp r n f (modify g) Q h s ↔ Q.done () h (g s) := by
  simp [wp, Post.Holds]

@[simp] theorem wp_step (g : ρ → σ → α × σ) :
    wp r n f (step g) Q h s ↔ Q.done (g r s).1 h (g r s).2 := by
  simp [wp, step, Post.Holds]

@[simp] theorem wp_note {Q : Post ε σ ω Unit} (w : ω) :
    wp r n f (note w) Q h s ↔ Q.done () (h ++ [f w]) s := by
  simp [wp, Post.Holds]

@[simp] theorem wp_raise (e : ε) : wp r n f (raise e) Q h s ↔ Q.raised e h s := by
  simp [wp, Post.Holds]

/-- A sequence: the assertion before its second part is asserted after the first. -/
theorem wp_bind {x : Act ρ ε σ ω α} {k : α → Act ρ ε σ ω β} {Q : Post ε σ ω β} :
    wp r n f (x >>= k) Q = wp r n f x ⟨fun a => wp r n f (k a) Q, Q.raised, Q.stopped⟩ := by
  funext h s
  unfold wp
  rw [bind_run]
  rcases x r n s with ⟨l, ⟨a, s₁⟩ | ⟨e, s₁⟩ | _ | _⟩ <;> simp [Post.Holds]

/-- A handler: the assertion before it is asserted of the exception. -/
theorem wp_attempt {x : Act ρ ε σ ω α} {k : ε → Act ρ ε σ ω α} :
    wp r n f (attempt x k) Q = wp r n f x ⟨Q.done, fun e => wp r n f (k e) Q, Q.stopped⟩ := by
  funext h s
  unfold wp attempt
  rcases x r n s with ⟨l, ⟨a, s₁⟩ | ⟨e, s₁⟩ | _ | _⟩ <;> simp [Post.Holds]

theorem wp_relabel {x : Act ρ ε σ ω α} {g : ω → ω} :
    wp r n f (relabel g x) Q = wp r n (f ∘ g) x Q := by
  funext h s
  simp [wp]

/-- The rule of consequence. -/
theorem wp_mono {x : Act ρ ε σ ω α} {Q' : Post ε σ ω α} (hx : wp r n f x Q h s)
    (hd : ∀ a h s, Q.done a h s → Q'.done a h s) (he : ∀ e h s, Q.raised e h s → Q'.raised e h s)
    (hs : ∀ h, Q.stopped h → Q'.stopped h) : wp r n f x Q' h s := by
  unfold wp at hx ⊢
  rcases hr : x r n s with ⟨l, ⟨a, s₁⟩ | ⟨e, s₁⟩ | _ | _⟩ <;> rw [hr] at hx
  · exact hd _ _ _ hx
  · exact he _ _ _ hx
  · exact hs _ hx
  · exact hs _ hx

/-- An assertion that every longer history makes true. -/
theorem wp_of_history {x : Act ρ ε σ ω α} (hd : ∀ a l s, Q.done a (h ++ l) s)
    (he : ∀ e l s, Q.raised e (h ++ l) s) (hs : ∀ l, Q.stopped (h ++ l)) : wp r n f x Q h s := by
  unfold wp
  rcases x r n s with ⟨l, ⟨a, s₁⟩ | ⟨e, s₁⟩ | _ | _⟩
  · exact hd _ _ _
  · exact he _ _ _
  · exact hs _
  · exact hs _

/-- A run only adds to the history, under its renaming. -/
theorem wp_history {x : Act ρ ε σ ω α} (hx : wp r n f x Q h s) :
    wp r n f x ⟨fun a h' s' => Q.done a h' s' ∧ ∃ l : List ω, h' = h ++ l.map f,
      fun e h' s' => Q.raised e h' s' ∧ ∃ l : List ω, h' = h ++ l.map f,
      fun h' => Q.stopped h' ∧ ∃ l : List ω, h' = h ++ l.map f⟩ h s := by
  unfold wp at hx ⊢
  rcases hr : x r n s with ⟨l, ⟨a, s₁⟩ | ⟨e, s₁⟩ | _ | _⟩ <;> rw [hr] at hx <;> exact ⟨hx, l, rfl⟩

/-- The ending of the run can be added to what is asserted of it. -/
theorem wp_and_ending {x : Act ρ ε σ ω α} (hx : wp r n f x Q h s) :
    wp r n f x ⟨fun a h' t => Q.done a h' t ∧ (x r n s).ending = .done a t,
      fun e h' t => Q.raised e h' t ∧ (x r n s).ending = .raised e t, Q.stopped⟩ h s := by
  unfold wp at hx ⊢
  rcases hr : x r n s with ⟨l, ⟨a, t⟩ | ⟨e, t⟩ | _ | _⟩ <;> rw [hr] at hx
  · exact ⟨hx, rfl⟩
  · exact ⟨hx, rfl⟩
  · exact hx
  · exact hx

/-- The assertion of a run that is known to have returned. -/
theorem wp_done {x : Act ρ ε σ ω α} {a : α} {s' : σ} (hx : wp r n f x Q h s)
    (hr : (x r n s).ending = .done a s') : Q.done a (h ++ (x r n s).log.map f) s' := by
  rwa [wp, hr] at hx

/-- The assertion of a run that is known to have raised. -/
theorem wp_raised {x : Act ρ ε σ ω α} {e : ε} {s' : σ} (hx : wp r n f x Q h s)
    (hr : (x r n s).ending = .raised e s') : Q.raised e (h ++ (x r n s).log.map f) s' := by
  rwa [wp, hr] at hx

/-- A run returns if it is asserted that it neither raises nor stops. -/
theorem wp_returns {x : Act ρ ε σ ω α} (hx : wp r n f x Q h s) (he : ∀ e h s, ¬ Q.raised e h s)
    (hs : ∀ h, ¬ Q.stopped h) :
    ∃ a s', (x r n s).ending = .done a s' ∧ Q.done a (h ++ (x r n s).log.map f) s' := by
  unfold wp at hx
  rcases hr : (x r n s).ending with ⟨a, s'⟩ | ⟨e, s'⟩ | _ | _ <;> rw [hr] at hx
  · exact ⟨a, s', rfl, hx⟩
  · exact absurd hx (he _ _ _)
  · exact absurd hx (hs _)
  · exact absurd hx (hs _)

/-- A run raises if it is asserted that it neither returns nor stops. -/
theorem wp_raises {x : Act ρ ε σ ω α} (hx : wp r n f x Q h s) (hd : ∀ a h s, ¬ Q.done a h s)
    (hs : ∀ h, ¬ Q.stopped h) :
    ∃ e s', (x r n s).ending = .raised e s' ∧ Q.raised e (h ++ (x r n s).log.map f) s' := by
  unfold wp at hx
  rcases hr : (x r n s).ending with ⟨a, s'⟩ | ⟨e, s'⟩ | _ | _ <;> rw [hr] at hx
  · exact (hd _ _ _ hx).elim
  · exact ⟨e, s', rfl, hx⟩
  · exact (hs _ hx).elim
  · exact (hs _ hx).elim

/-- **The invariant rule.** `L` holds whenever the condition is about to be evaluated. -/
theorem wp_loopUpTo {cond : Act ρ ε σ ω Bool} {body : Act ρ ε σ ω Unit} {Q : Post ε σ ω Unit}
    {L : List ω → σ → Prop} (hstop : ∀ h s, L h s → Q.stopped h)
    (hround : ∀ h s, L h s → wp r n f cond ⟨fun b h s =>
      if b then wp r n f body ⟨fun _ => L, Q.raised, Q.stopped⟩ h s else Q.done () h s,
      Q.raised, Q.stopped⟩ h s) (k : ℕ) : ∀ {h s}, L h s →
      wp r n f (loopUpTo cond body k) Q h s := by
  induction k with
  | zero => intro h s hL; simpa [wp, loopUpTo, Post.Holds] using hstop h s hL
  | succ k ih =>
    intro h s hL
    rw [loopUpTo_succ, wp_bind]
    refine wp_mono (hround h s hL) ?_ (fun _ _ _ he => he) fun _ hs => hs
    intro b h₁ s₁ hb
    cases b with
    | false => simpa using hb
    | true =>
      simp only [if_true] at hb ⊢
      rw [wp_bind]
      exact wp_mono hb (fun _ h₂ s₂ hL₂ => ih hL₂) (fun _ _ _ he => he) fun _ hs => hs

end LuaAdaLoad.Control.Weakest
