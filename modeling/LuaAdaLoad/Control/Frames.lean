import LuaAdaLoad.Control.Weakest

/-!
# Frames

A frame says what an action may do at most: every event that it logs is in `E`, every exception that
it raises is in `X`, and every state that it ends in is related to the first one by `R`
(`Within E X R`). A frame with a reflexive and transitive relation is kept by composition, so that the
frame of a program follows from those of its parts.
-/

namespace LuaAdaLoad.Control.Frames

open LuaAdaLoad.Control.Actions LuaAdaLoad.Control.Weakest

variable {ρ ε σ ω α β : Type}

/-- The exception, if there is one, and the final state have these properties. -/
def Leaves (X : ε → Prop) (P : σ → Prop) : Ending ε σ α → Prop
  | .done _ s => P s
  | .raised e s => X e ∧ P s
  | .aborted => True
  | .unfinished => True

/-- An action logs events in `E` and raises exceptions in `X` only, and relates its first and last
state by `R`. -/
def Within (E : ω → Prop) (X : ε → Prop) (R : σ → σ → Prop) (x : Act ρ ε σ ω α) : Prop :=
  ∀ r n s, (∀ w ∈ (x r n s).log, E w) ∧ Leaves X (R s) (x r n s).ending

variable {E E' : ω → Prop} {X X' : ε → Prop} {R R' : σ → σ → Prop} {x y : Act ρ ε σ ω α}
variable {f : α → Act ρ ε σ ω β}

theorem Within.mono (hx : Within E X R x) (hE : ∀ w, E w → E' w) (hX : ∀ e, X e → X' e)
    (hR : ∀ s t, R s t → R' s t) : Within E' X' R' x := fun r n s => by
  obtain ⟨hlog, hend⟩ := hx r n s
  refine ⟨fun w hw => hE w (hlog w hw), ?_⟩
  rcases hrun : (x r n s).ending with ⟨a, t⟩ | ⟨e, t⟩ | _ | _ <;> rw [hrun] at hend
  · exact hR s t hend
  · exact ⟨hX e hend.1, hR s t hend.2⟩
  · trivial
  · trivial

theorem within_ite {c : Prop} [Decidable c] (hx : Within E X R x) (hy : Within E X R y) :
    Within E X R (if c then x else y) := by
  split_ifs
  · exact hx
  · exact hy

theorem within_abort : Within E X R (abort : Act ρ ε σ ω α) := fun _ _ _ => ⟨by simp, trivial⟩

theorem within_step {g : ρ → σ → α × σ} (hg : ∀ r s, R s (g r s).2) :
    Within E X R (step g : Act ρ ε σ ω α) := fun r _ s => ⟨by simp [step], hg r s⟩

theorem within_modify {g : σ → σ} (hg : ∀ s, R s (g s)) :
    Within E X R (modify g : Act ρ ε σ ω Unit) := fun _ _ s => ⟨by simp, hg s⟩

/-! ### Frames that composition keeps -/

section Preorder

variable [IsPreorder σ R]

theorem within_pure (a : α) : Within E X R (pure a : Act ρ ε σ ω α) := fun _ _ s =>
  ⟨by simp, refl_of R s⟩

theorem within_get : Within E X R (get : Act ρ ε σ ω σ) := fun _ _ s => ⟨by simp, refl_of R s⟩

theorem within_ask : Within E X R (ask : Act ρ ε σ ω ρ) := fun _ _ s => ⟨by simp, refl_of R s⟩

theorem within_raise {e : ε} (he : X e) : Within E X R (raise e : Act ρ ε σ ω α) := fun _ _ s =>
  ⟨by simp, he, refl_of R s⟩

theorem within_note {w : ω} (hw : E w) : Within E X R (note w : Act ρ ε σ ω Unit) := fun _ _ s =>
  ⟨by simpa using hw, refl_of R s⟩

/-- **The frame of a sequence** is that of its parts. -/
theorem within_bind (hx : Within E X R x) (hf : ∀ a, Within E X R (f a)) :
    Within E X R (x >>= f) := fun r n s => by
  obtain ⟨hlog, hend⟩ := hx r n s
  rw [bind_run]
  rcases hrun : x r n s with ⟨l, ⟨a, t⟩ | ⟨e, t⟩ | _ | _⟩ <;> rw [hrun] at hlog hend
  · obtain ⟨hlog', hend'⟩ := hf a r n t
    rw [andThen_done]
    refine ⟨fun w hw => ?_, ?_⟩
    · rcases List.mem_append.mp hw with hw | hw
      · exact hlog w hw
      · exact hlog' w hw
    · rcases hrun' : (f a r n t).ending with ⟨b, u⟩ | ⟨e, u⟩ | _ | _ <;> rw [hrun'] at hend'
      · exact trans_of R hend hend'
      · exact ⟨hend'.1, trans_of R hend hend'.2⟩
      · trivial
      · trivial
  · exact ⟨hlog, hend⟩
  · exact ⟨hlog, trivial⟩
  · exact ⟨hlog, trivial⟩

theorem within_attempt {X' : ε → Prop} {k : ε → Act ρ ε σ ω α} (hx : Within E X R x)
    (hk : ∀ e, X e → Within E X' R (k e)) : Within E X' R (attempt x k) := fun r n s => by
  obtain ⟨hlog, hend⟩ := hx r n s
  unfold attempt
  rcases hrun : x r n s with ⟨l, ⟨a, t⟩ | ⟨e, t⟩ | _ | _⟩ <;> rw [hrun] at hlog hend
  · exact ⟨hlog, hend⟩
  · obtain ⟨he, hend⟩ := hend
    obtain ⟨hlog', hend'⟩ := hk e he r n t
    refine ⟨fun w hw => ?_, ?_⟩
    · rcases List.mem_append.mp hw with hw | hw
      · exact hlog w hw
      · exact hlog' w hw
    · simp only
      rcases hrun' : (k e r n t).ending with ⟨b, u⟩ | ⟨e', u⟩ | _ | _ <;> rw [hrun'] at hend'
      · exact trans_of R hend hend'
      · exact ⟨hend'.1, trans_of R hend hend'.2⟩
      · trivial
      · trivial
  · exact ⟨hlog, trivial⟩
  · exact ⟨hlog, trivial⟩

end Preorder

/-- A frame can be added to what is known of the run of an action. -/
theorem Within.wp_and {r : ρ} {n : ℕ} {h : List ω} {s : σ} {Q : Post ε σ ω α}
    (hx : Within E X R x) (hQ : wp r n id x Q h s) : wp r n id x
      ⟨fun a h' t => Q.done a h' t ∧ R s t ∧ ∃ l, h' = h ++ l ∧ ∀ w ∈ l, E w,
        fun e h' t => Q.raised e h' t ∧ X e ∧ R s t ∧ ∃ l, h' = h ++ l ∧ ∀ w ∈ l, E w,
        fun h' => Q.stopped h' ∧ ∃ l, h' = h ++ l ∧ ∀ w ∈ l, E w⟩ h s := by
  obtain ⟨hlog, hend⟩ := hx r n s
  unfold wp at hQ ⊢
  rw [List.map_id] at hQ ⊢
  rcases hrun : (x r n s).ending with ⟨a, t⟩ | ⟨e, t⟩ | _ | _ <;> rw [hrun] at hQ hend
  · exact ⟨hQ, hend, _, rfl, hlog⟩
  · exact ⟨hQ, hend.1, hend.2, _, rfl, hlog⟩
  · exact ⟨hQ, _, rfl, hlog⟩
  · exact ⟨hQ, _, rfl, hlog⟩

/-- What a frame says of a run. -/
theorem Within.wp {r : ρ} {n : ℕ} {h : List ω} {s : σ} (hx : Within E X R x) : wp r n id x
    ⟨fun _ h' t => R s t ∧ ∃ l, h' = h ++ l ∧ ∀ w ∈ l, E w,
      fun e h' t => X e ∧ R s t ∧ ∃ l, h' = h ++ l ∧ ∀ w ∈ l, E w,
      fun h' => ∃ l, h' = h ++ l ∧ ∀ w ∈ l, E w⟩ h s := by
  have htrue : Weakest.wp r n id x ⟨fun _ _ _ => True, fun _ _ _ => True, fun _ => True⟩ h s :=
    wp_of_history (fun _ _ _ => trivial) (fun _ _ _ => trivial) fun _ => trivial
  exact wp_mono (hx.wp_and htrue) (fun _ _ _ h => h.2) (fun _ _ _ h => h.2) fun _ h => h.2

/-! ### What is returned -/

/-- Whatever an action returns has this property. -/
def Returns (P : α → Prop) (x : Act ρ ε σ ω α) : Prop :=
  ∀ r n s a t, (x r n s).ending = .done a t → P a

theorem returns_pure {P : α → Prop} {a : α} (ha : P a) :
    Returns P (pure a : Act ρ ε σ ω α) := fun _ _ _ _ _ h => by
  obtain ⟨rfl, -⟩ := Ending.done.inj h
  exact ha

theorem returns_raise {P : α → Prop} (e : ε) : Returns P (raise e : Act ρ ε σ ω α) :=
  fun _ _ _ _ _ h => by simp at h

theorem returns_bind {P : α → Prop} {Q : β → Prop} (hx : Returns P x)
    (hf : ∀ a, P a → Returns Q (f a)) : Returns Q (x >>= f) := fun r n s b u h => by
  rw [bind_run] at h
  rcases hrun : x r n s with ⟨l, ⟨a, t⟩ | ⟨e, t⟩ | _ | _⟩ <;> rw [hrun] at h
  · exact hf a (hx r n s a t (by rw [hrun])) r n t b u h
  · exact absurd h (by simp)
  · exact absurd h (by simp)
  · exact absurd h (by simp)

/-- A sequence returns what its last part does. -/
theorem returns_last {Q : β → Prop} (hf : ∀ a, Returns Q (f a)) : Returns Q (x >>= f) :=
  returns_bind (P := fun _ => True) (fun _ _ _ _ _ _ => trivial) fun a _ => hf a

/-! ### What holds afterwards -/

/-- Whenever the action returns, what it returns and its last state have this property. -/
def Afterwards (r : ρ) (n : ℕ) (x : Act ρ ε σ ω α) (P : α → σ → Prop) (s : σ) : Prop :=
  ∀ a t, (x r n s).ending = .done a t → P a t

section Afterwards

variable {r : ρ} {n : ℕ} {s : σ} {P Q : α → σ → Prop}

theorem afterwards_of_ending {a : α} {t : σ} (h : (x r n s).ending = .done a t) :
    Afterwards r n x P s ↔ P a t := by
  constructor
  · exact fun hP => hP a t h
  · rintro hP b u hrun
    obtain ⟨rfl, rfl⟩ := Ending.done.inj (h.symm.trans hrun)
    exact hP

end Afterwards

end LuaAdaLoad.Control.Frames
