import LuaAdaLoad.Control.Transitions
import Mathlib.Data.List.Induction

/-!
# Mutual exclusion

What a lock is for, with no lock in it: somebody enters, acts, and leaves, and nobody enters before
that. The traces of this system are known (`mutex_trace`): whole sections, each of one party, one
after the other, and at most one that has begun.
-/

namespace LuaAdaLoad.Control.Mutex

open LuaAdaLoad.Control.Transitions

/-- What a party does about the section: it enters, does something inside, leaves. -/
inductive Deed (ι A : Type) where
  | enters (i : ι)
  | acts (i : ι) (a : A)
  | leaves (i : ι)

variable {ι A : Type} [DecidableEq ι]

/-- The system: who is inside. -/
def mutex (inside : Option ι) : Deed ι A → Option (Option ι)
  | .enters i => if inside = none then some (some i) else none
  | .acts i _ => if inside = some i then some inside else none
  | .leaves i => if inside = some i then some none else none

/-- A section that has begun: its party, and what it did inside. -/
def begun (x : ι × List A) : List (Deed ι A) := .enters x.1 :: x.2.map (.acts x.1)

/-- A whole section. -/
def whole (x : ι × List A) : List (Deed ι A) := begun x ++ [.leaves x.1]

/-- Sections one after the other; the last one, of the party that is inside, has only begun. -/
def Serial (ds : List (Deed ι A)) (inside : Option ι) : Prop :=
  ∃ xs : List (ι × List A), match inside with
    | none => ds = xs.flatMap whole
    | some i => ∃ as, ds = xs.flatMap whole ++ begun (i, as)

theorem Serial.step {ds : List (Deed ι A)} {inside inside' : Option ι} {d : Deed ι A}
    (h : Serial ds inside) (hd : mutex inside d = some inside') : Serial (ds ++ [d]) inside' := by
  cases d with
  | enters i =>
    obtain ⟨rfl, rfl⟩ := by simpa [mutex] using hd
    obtain ⟨xs, rfl⟩ := h
    exact ⟨xs, [], rfl⟩
  | acts i a =>
    obtain ⟨rfl, rfl⟩ := by simpa [mutex] using hd
    obtain ⟨xs, as, rfl⟩ := h
    exact ⟨xs, as ++ [a], by simp [begun]⟩
  | leaves i =>
    obtain ⟨rfl, rfl⟩ := by simpa [mutex] using hd
    obtain ⟨xs, as, rfl⟩ := h
    exact ⟨xs ++ [(i, as)], by simp [whole]⟩

/-- The traces of the system are serial. -/
theorem mutex_trace {ds : List (Deed ι A)} {inside : Option ι} (h : Trace mutex none ds inside) :
    Serial ds inside := by
  induction ds using List.reverseRecOn generalizing inside with
  | nil =>
    rw [trace_nil] at h
    subst h
    exact ⟨[], rfl⟩
  | append_singleton ds d ih =>
    obtain ⟨mid, hmid, hd⟩ := trace_snoc.mp h
    exact (ih hmid).step hd

end LuaAdaLoad.Control.Mutex
