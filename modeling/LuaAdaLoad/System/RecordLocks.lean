import Mathlib.Data.Option.Basic
import Mathlib.Logic.Function.Basic

/-!
# Record locks

Write locks on whole files as a kernel keeps them for `fcntl`: a lock belongs to a process, not to a
descriptor. A child has its parent's descriptor but not its locks, and a process that closes a
descriptor of a file loses its lock on the file, as it does when it ends.

Of a process's descriptors the table keeps one, the one of the file that is locked.
-/

namespace LuaAdaLoad.System.RecordLocks

variable {P F : Type} [DecidableEq P] [DecidableEq F]

/-- Who holds the lock of a file, and the file that a process has open. -/
structure Locks (P F : Type) where
  holder : F → Option P
  opened : P → Option F

/-- No file is open, no lock held. -/
def Locks.free : Locks P F := ⟨fun _ => none, fun _ => none⟩

/-- `open`. -/
def Locks.opens (k : Locks P F) (p : P) (f : F) : Locks P F :=
  { k with opened := Function.update k.opened p (some f) }

/-- `fcntl (fd, F_SETLKW, F_WRLCK)` when it returns: it waits as long as another process holds the
lock. -/
def Locks.setLock (k : Locks P F) (p : P) : Option (Locks P F) :=
  match k.opened p with
  | none => none
  | some f =>
    if k.holder f = none ∨ k.holder f = some p then
      some { k with holder := Function.update k.holder f (some p) }
    else none

/-- The lock of a file, if `p` holds it, is let go. -/
def Locks.drop (k : Locks P F) (p : P) (f : F) : Locks P F :=
  if k.holder f = some p then { k with holder := Function.update k.holder f none } else k

/-- `fcntl (fd, F_SETLKW, F_UNLCK)`. -/
def Locks.unlock (k : Locks P F) (p : P) : Locks P F :=
  match k.opened p with
  | none => k
  | some f => k.drop p f

/-- `close (fd)`, which also happens when the process ends. -/
def Locks.close (k : Locks P F) (p : P) : Locks P F :=
  { k.unlock p with opened := Function.update k.opened p none }

/-- `fork`: the child `c` has the descriptor of `p`, and no lock. -/
def Locks.fork (k : Locks P F) (p c : P) : Locks P F :=
  { k with opened := Function.update k.opened c (k.opened p) }

/-- A lock is held by a process that has the file open. -/
def Locks.Sound (k : Locks P F) : Prop := ∀ f p, k.holder f = some p → k.opened p = some f

variable {k k' : Locks P F} {p q c : P} {f g : F}

/-! ### What the operations do to the locks -/

omit [DecidableEq F] in
@[simp] theorem opens_holder : (k.opens p f).holder = k.holder := rfl

omit [DecidableEq F] in
@[simp] theorem fork_holder : (k.fork p c).holder = k.holder := rfl

@[simp] theorem unlock_opened : (k.unlock p).opened = k.opened := by
  unfold Locks.unlock Locks.drop
  split
  · rfl
  · split <;> rfl

theorem unlock_of_opened (h : k.opened p = some f) : k.unlock p = k.drop p f := by
  simp [Locks.unlock, h]

theorem drop_holder : (k.drop p f).holder g = some q ↔ k.holder g = some q ∧ ¬ (g = f ∧ q = p) := by
  unfold Locks.drop
  split
  case isTrue h =>
    by_cases hg : g = f
    · subst hg
      simp only [Function.update_self, reduceCtorEq, true_and, false_iff, not_and, not_not]
      intro hq
      exact Option.some.inj (hq.symm.trans h)
    · simp [hg]
  case isFalse h =>
    constructor
    · intro hq
      refine ⟨hq, ?_⟩
      rintro ⟨rfl, rfl⟩
      exact h hq
    · exact And.left

/-- Letting a lock go takes it from the process, and changes nothing else. -/
theorem unlock_holder (hk : k.Sound) :
    (k.unlock p).holder g = some q ↔ k.holder g = some q ∧ q ≠ p := by
  cases h : k.opened p with
  | none =>
    simp only [Locks.unlock, h, iff_self_and]
    rintro hq rfl
    rw [hk g q hq] at h
    cases h
  | some f =>
    rw [unlock_of_opened h, drop_holder]
    constructor
    · rintro ⟨hq, hne⟩
      refine ⟨hq, ?_⟩
      rintro rfl
      rw [hk g q hq] at h
      exact hne ⟨Option.some.inj h, rfl⟩
    · rintro ⟨hq, hne⟩
      exact ⟨hq, fun h => hne h.2⟩

theorem close_holder (hk : k.Sound) :
    (k.close p).holder g = some q ↔ k.holder g = some q ∧ q ≠ p :=
  unlock_holder hk

@[simp] theorem close_opened : (k.close p).opened = Function.update k.opened p none := rfl

theorem setLock_eq_some :
    k.setLock p = some k' ↔ ∃ f, k.opened p = some f ∧
      (k.holder f = none ∨ k.holder f = some p) ∧
      k' = { k with holder := Function.update k.holder f (some p) } := by
  unfold Locks.setLock
  cases k.opened p with
  | none => simp
  | some f => simp [eq_comm]

/-- A lock that is free is given. -/
theorem setLock_of_free (h : k.opened p = some f) (hf : k.holder f = none) :
    k.setLock p = some { k with holder := Function.update k.holder f (some p) } :=
  setLock_eq_some.mpr ⟨f, h, Or.inl hf, rfl⟩

/-! ### A lock is held by a process that has the file open -/

omit [DecidableEq P] [DecidableEq F] in
theorem sound_free : (Locks.free : Locks P F).Sound := by
  intro f p h
  simp [Locks.free] at h

omit [DecidableEq F] in
theorem Locks.Sound.opens (hk : k.Sound) (hp : ∀ g, k.holder g ≠ some p) :
    (k.opens p f).Sound := by
  intro g q h
  have hq : q ≠ p := fun hq => hp g (hq ▸ h)
  simpa [Locks.opens, hq] using hk g q h

omit [DecidableEq F] in
theorem Locks.Sound.fork (hk : k.Sound) (hc : ∀ g, k.holder g ≠ some c) :
    (k.fork p c).Sound := by
  intro g q h
  have hq : q ≠ c := fun hq => hc g (hq ▸ h)
  simpa [Locks.fork, hq] using hk g q h

theorem Locks.Sound.unlock (hk : k.Sound) : (k.unlock p).Sound := by
  intro g q h
  rw [unlock_opened]
  exact hk g q ((unlock_holder hk).mp h).1

theorem Locks.Sound.close (hk : k.Sound) : (k.close p).Sound := by
  intro g q h
  obtain ⟨h1, hq⟩ := (close_holder hk).mp h
  simpa [hq] using hk g q h1

theorem Locks.Sound.setLock (hk : k.Sound) (h : k.setLock p = some k') : k'.Sound := by
  obtain ⟨f, hf, -, rfl⟩ := setLock_eq_some.mp h
  intro g q hq
  by_cases hg : g = f
  · subst hg
    simp only [Function.update_self, Option.some.injEq] at hq
    exact hq ▸ hf
  · exact hk g q (by simpa [hg] using hq)

end LuaAdaLoad.System.RecordLocks
