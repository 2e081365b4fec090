import LuaAdaLoad.Control.Frames

/-!
# Invariants of actions

An action keeps an assertion on states if it holds in every state that the action ends in, provided
that it holds in the first one (`Stable`). This is a frame whose relation is a preorder, whatever the
assertion is, so that the rules of frames apply.
-/

namespace LuaAdaLoad.Control.Invariants

open LuaAdaLoad.Control.Actions LuaAdaLoad.Control.Weakest LuaAdaLoad.Control.Frames

variable {ρ ε σ ω α : Type}

/-- If the assertion holds in the first state, it holds in the second one. -/
def Preserves (I : σ → Prop) (s t : σ) : Prop := I s → I t

instance (I : σ → Prop) : IsPreorder σ (Preserves I) where
  refl _ := id
  trans _ _ _ h h' := h' ∘ h

/-- The action keeps the assertion. -/
abbrev Stable (I : σ → Prop) (x : Act ρ ε σ ω α) : Prop :=
  Within (fun _ => True) (fun _ => True) (Preserves I) x

variable {I : σ → Prop} {x : Act ρ ε σ ω α}

/-- An action that leaves the states related keeps what the relation keeps. -/
theorem stable_of_within {E : ω → Prop} {X : ε → Prop} {R : σ → σ → Prop} (hx : Within E X R x)
    (hR : ∀ s t, R s t → I s → I t) : Stable I x :=
  hx.mono (fun _ _ => trivial) (fun _ _ => trivial) hR

theorem Stable.wp {r : ρ} {n : ℕ} {h : List ω} {s : σ} (hx : Stable I x) (hs : I s) :
    wp r n id x ⟨fun _ _ t => I t, fun _ _ t => I t, fun _ => True⟩ h s :=
  wp_mono (Within.wp hx) (fun _ _ _ h => h.1 hs) (fun _ _ _ h => h.2.1 hs) fun _ _ => trivial

end LuaAdaLoad.Control.Invariants
