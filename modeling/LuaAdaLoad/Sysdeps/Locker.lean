import LuaAdaLoad.Control.Transitions
import LuaAdaLoad.System.RecordLocks
import Mathlib.Tactic

/-!
# `sd-locker`

`sd-locker id file command …` runs a command while it holds the lock of a file: `main` opens the
file, takes its lock, forks a child that closes its copy of the descriptor and executes the command,
waits for it, gives the lock back and ends with the command's exit status. The build starts many
such processes at once, with one lock file.

The state has every locker's `main` and its child, and the kernel's record locks. An event is one
system call of one process, or the end of a command; a call that can fail has an event in which it
does (`fails`, `childFails`). A signal may end a locker anywhere (`killed`), its child before
`execvp` (`childKilled`), and then the command, whose end has any status (`commandEnds`).
-/

namespace LuaAdaLoad.Sysdeps.Locker

open LuaAdaLoad.System.RecordLocks LuaAdaLoad.Control.Transitions

/-! ### The program -/

/-- Where a locker's `main` stands: at its start, before the system call of one of its functions,
before its `return`, or ended, with the status its parent gets. -/
inductive Point where
  | start
  | lockFileOpen
  | lockAcquire
  | execute
  | waitpid
  | lockRelease
  | lockFileClose
  | done
  | ended (status : ℕ)
deriving DecidableEq

/-- The child: not forked yet, before `close`, before `execvp`, running the command, ended with a
status, waited for. -/
inductive Child where
  | unborn
  | close
  | execvp
  | running (argv : List String)
  | ended (status : ℕ)
  | reaped
deriving DecidableEq

/-- `sd_locker_state_t`, its fields that change, and where the locker stands. -/
structure LockerState where
  point : Point
  exitCode : ℕ
  locked : ℕ

/-- The status that `waitpid` gives for `exit (n)`. -/
def exited (n : ℕ) : ℕ := n % 256 * 256

/-- The status that `waitpid` gives for a process that a signal ended, with or without a core
dump. -/
def signalled (signal : ℕ) (core : Bool) : ℕ := signal % 128 + if core then 128 else 0

/-- `WEXITSTATUS (status)`. -/
def wexitstatus (status : ℕ) : ℕ := (status &&& 0xff00) >>> 8

/-- The status after a failed `assert`: `SIGABRT`. No `assert` of `main` fails (`Good.asserted`). -/
def aborted : ℕ := signalled 6 false

/-- What a process does next: the system call at its point, successful or not, or its end. -/
inductive Action where
  | main
  | lockFileOpen
  | lockAcquire
  | fork
  | childClose
  | execvp
  | commandEnds (status : ℕ)
  | waitpid
  | lockRelease
  | lockFileClose
  | returns
  | fails (call : Point)
  | childFails
  | childKilled (signal : ℕ) (core : Bool)
  | killed (point : Point) (signal : ℕ) (core : Bool)
deriving DecidableEq

/-- The processes of the locker `i`: itself and its child. -/
inductive Process (ι : Type) where
  | locker (i : ι)
  | child (i : ι)
deriving DecidableEq

/-- What the processes are started with, and the file that a path leads to. -/
structure Setting (ι F : Type) where
  argv : ι → List String
  file : String → F

/-- The lockers, their children and the locks. -/
structure State (ι F : Type) where
  locker : ι → LockerState
  child : ι → Child
  locks : Locks (Process ι) F

variable {ι F : Type} [DecidableEq ι] [DecidableEq F]

/-- `state.lock_file = argv[2]`, and the file behind it. -/
def Setting.lockFile (w : Setting ι F) (i : ι) : F := w.file ((w.argv i).getD 2 "")

/-- `argv + 3`. -/
def Setting.command (w : Setting ι F) (i : ι) : List String := (w.argv i).drop 3

/-- One locker, its child and the locks. -/
abbrev Part (ι F : Type) : Type := LockerState × Child × Locks (Process ι) F

/-- The locker ends: its descriptor is closed, its lock dropped. -/
def exits (i : ι) (l : LockerState) (c : Child) (k : Locks (Process ι) F) (status : ℕ) : Part ι F :=
  ({ l with point := .ended status }, c, k.close (.locker i))

/-- `sd_locker_fatal`: `exit (EXIT_FAILURE)`. -/
def fatal (i : ι) (l : LockerState) (c : Child) (k : Locks (Process ι) F) : Part ι F :=
  exits i l c k (exited 1)

/-- `assert (state->locked == …)`, before the calls that have one. -/
def asserted : Point → ℕ → Bool
  | .lockAcquire, locked => locked == 0
  | .execute, locked => locked == 1
  | .lockRelease, locked => locked == 1
  | _, _ => true

/-- The locker stands before the call `p`: its assertion is looked at, and the call done. -/
def call (p : Point) (i : ι) (l : LockerState) (c : Child) (k : Locks (Process ι) F)
    (next : Option (Part ι F)) : Option (Part ι F) :=
  if l.point = p then
    if asserted p l.locked then next else some (exits i l c k aborted)
  else none

/-- The calls of a locker that can return `-1`; `sd_locker_fatal` follows. -/
def Point.canFail : Point → Bool
  | .lockFileOpen | .lockAcquire | .execute | .waitpid | .lockRelease | .lockFileClose => true
  | _ => false

/-- One action of the locker `i` or of its child. -/
def act (w : Setting ι F) (i : ι) (l : LockerState) (c : Child) (k : Locks (Process ι) F) :
    Action → Option (Part ι F)
  | .main => call .start i l c k <|
    -- `usage ()` if `argc < 4`
    if (w.argv i).length < 4 then some (exits i l c k (exited 1))
    else some ({ l with point := .lockFileOpen, exitCode := 0 }, c, k)
  | .lockFileOpen => call .lockFileOpen i l c k <|
    some ({ l with point := .lockAcquire }, c, k.opens (.locker i) (w.lockFile i))
  | .lockAcquire => call .lockAcquire i l c k <|
    (k.setLock (.locker i)).map fun k' => ({ l with point := .execute, locked := 1 }, c, k')
  | .fork => call .execute i l c k <|
    some ({ l with point := .waitpid }, .close, k.fork (.locker i) (.child i))
  | .childClose => if c = .close then some (l, .execvp, k.close (.child i)) else none
  | .execvp => if c = .execvp then some (l, .running (w.command i), k) else none
  | .commandEnds status =>
    match c with
    | .running _ => some (l, .ended status, k)
    | _ => none
  | .waitpid => call .waitpid i l c k <|
    match c with
    | .ended status =>
      some ({ l with point := .lockRelease, exitCode := wexitstatus status }, .reaped, k)
    | _ => none
  | .lockRelease => call .lockRelease i l c k <|
    some ({ l with point := .lockFileClose, locked := 0 }, c, k.unlock (.locker i))
  | .lockFileClose => call .lockFileClose i l c k <|
    some ({ l with point := .done }, c, k.close (.locker i))
  | .returns => call .done i l c k <| some (exits i l c k (exited l.exitCode))
  | .fails p => if p.canFail then call p i l c k (some (fatal i l c k)) else none
  | .childFails =>
    -- `close` or `execvp` returned `-1` in the child, whose `sd_locker_fatal` ends it
    if c = .close ∨ c = .execvp then some (l, .ended (exited 1), k.close (.child i)) else none
  | .childKilled signal core =>
    if (c = .close ∨ c = .execvp) ∧ 0 < signal ∧ signal ≤ 64 then
      some (l, .ended (signalled signal core), k.close (.child i))
    else none
  | .killed p signal core =>
    match p with
    | .ended _ => none
    | _ =>
      if l.point = p ∧ 0 < signal ∧ signal ≤ 64 then
        some (exits i l c k (signalled signal core))
      else none

/-- One event of the system: the locker `i` or its child acts. -/
def step (w : Setting ι F) (s : State ι F) (e : ι × Action) : Option (State ι F) :=
  (act w e.1 (s.locker e.1) (s.child e.1) s.locks e.2).map fun q =>
    { locker := Function.update s.locker e.1 q.1
      child := Function.update s.child e.1 q.2.1
      locks := q.2.2 }

/-- No locker has started. The state is static, and zero. -/
def initial : State ι F := ⟨fun _ => ⟨.start, 0, 0⟩, fun _ => .unborn, Locks.free⟩

/-- What can be reached from the start. -/
def Reachable (w : Setting ι F) (s : State ι F) : Prop := ∃ es, Trace (step w) initial es s

/-! ### What every step keeps -/

/-- The section of `main` in which the lock is held. -/
def Point.inside : Point → Bool
  | .execute | .waitpid | .lockRelease => true
  | _ => false

/-- The section of `main` in which the lock file is open. -/
def Point.hasOpen : Point → Bool
  | .lockAcquire | .execute | .waitpid | .lockRelease | .lockFileClose => true
  | _ => false

/-- The children that a locker can have where it stands. -/
def Fits : Point → Child → Prop
  | .start, c | .lockFileOpen, c | .lockAcquire, c | .execute, c => c = .unborn
  | .waitpid, c => c ≠ .unborn ∧ c ≠ .reaped
  | .lockRelease, c | .lockFileClose, c | .done, c => c = .reaped
  | .ended _, _ => True

/-- What holds of one locker: it has the lock of its file, and of no other, where it should; its
flag says so; its file is open; its child is at a place that fits, and never has the lock. -/
structure Good (w : Setting ι F) (i : ι) (l : LockerState) (c : Child) (k : Locks (Process ι) F) :
    Prop where
  holds : ∀ g, k.holder g = some (.locker i) ↔ g = w.lockFile i ∧ l.point.inside
  childless : ∀ g, k.holder g ≠ some (.child i)
  opened : l.point.hasOpen → k.opened (.locker i) = some (w.lockFile i)
  locked : (∀ st, l.point ≠ .ended st) → l.locked = if l.point.inside then 1 else 0
  fits : Fits l.point c

/-- The invariant of the system. -/
structure Inv (w : Setting ι F) (s : State ι F) : Prop where
  sound : s.locks.Sound
  good : ∀ i, Good w i (s.locker i) (s.child i) s.locks

/-- The processes of other lockers are not touched: their locks, and what they have open. -/
structure Leaves (i : ι) (k k' : Locks (Process ι) F) : Prop where
  holder : ∀ g q, q ≠ .locker i → q ≠ .child i → (k'.holder g = some q ↔ k.holder g = some q)
  opened : ∀ q, q ≠ .locker i → q ≠ .child i → k'.opened q = k.opened q

section Steps

variable {w : Setting ι F} {i j : ι} {l l' : LockerState} {c c' : Child}
  {k k' : Locks (Process ι) F} {a : Action} {p : Point} {q : Part ι F}

omit [DecidableEq ι] [DecidableEq F] in
theorem Leaves.refl : Leaves i k k := ⟨fun _ _ _ _ => Iff.rfl, fun _ _ _ => rfl⟩

theorem leaves_close_locker (hk : k.Sound) : Leaves i k (k.close (.locker i)) where
  holder g q hq _ := by simp [close_holder hk, hq]
  opened q hq _ := by simp [hq]

theorem leaves_close_child (hk : k.Sound) : Leaves i k (k.close (.child i)) where
  holder g q _ hq := by simp [close_holder hk, hq]
  opened q _ hq := by simp [hq]

omit [DecidableEq ι] [DecidableEq F] in
/-- What a locker's neighbours do does not matter to it. -/
theorem Good.of_leaves (h : Good w i l c k) (hl : Leaves j k k') (hij : i ≠ j) :
    Good w i l c k' where
  holds g := by rw [hl.holder g _ (by simpa) (by simp), h.holds g]
  childless g := by rw [Ne, hl.holder g _ (by simp) (by simpa)]; exact h.childless g
  opened hp := by rw [hl.opened _ (by simpa) (by simp)]; exact h.opened hp
  locked := h.locked
  fits := h.fits

omit [DecidableEq ι] [DecidableEq F] in
/-- The assertions hold. -/
theorem Good.asserted (h : Good w i l c k) : asserted l.point l.locked = true := by
  have h1 := h.locked
  cases hp : l.point with
  | lockAcquire | execute | lockRelease =>
    rw [hp] at h1
    simp [Locker.asserted, h1, Point.inside]
  | _ => rfl

theorem Good.call_eq_some (h : Good w i l c k) {next : Option (Part ι F)} :
    call p i l c k next = some q ↔ l.point = p ∧ next = some q := by
  unfold call
  split
  case isTrue hp =>
    subst hp
    simp [h.asserted]
  case isFalse hp => simp [hp]

omit [DecidableEq ι] [DecidableEq F] in
/-- A locker without the lock, where `main` says so. -/
theorem Good.free (h : Good w i l c k) (hp : l.point.inside = false) (g : F) :
    k.holder g ≠ some (.locker i) := by
  rw [Ne, h.holds g, hp]
  simp

/-- A locker that ends lets go of everything. -/
theorem Good.exits (h : Good w i l c k) (hk : k.Sound) (status : ℕ) :
    Good w i { l with point := .ended status } c (k.close (.locker i)) where
  holds g := by simp [close_holder hk, Point.inside]
  childless g := by simpa [close_holder hk] using h.childless g
  opened := by simp [Point.hasOpen]
  locked hp := absurd rfl (hp status)
  fits := trivial

/-- What an action of the locker `i` leaves behind. -/
structure Kept (w : Setting ι F) (i : ι) (k : Locks (Process ι) F) (q : Part ι F) : Prop where
  good : Good w i q.1 q.2.1 q.2.2
  sound : q.2.2.Sound
  leaves : Leaves i k q.2.2

theorem Good.kept_exits (h : Good w i l c k) (hk : k.Sound) (status : ℕ) :
    Kept w i k (Locker.exits i l c k status) :=
  ⟨h.exits hk status, hk.close, leaves_close_locker hk⟩

omit [DecidableEq ι] [DecidableEq F] in
/-- Actions that touch neither the locks nor the flag, between points with the same rights. -/
theorem Good.kept_goto (h : Good w i l c k) (hk : k.Sound) {p : Point} {n : ℕ}
    (hin : p.inside = l.point.inside) (hop : p.hasOpen → l.point.hasOpen)
    (hne : ∀ st, l.point ≠ .ended st) (hf : Fits p c') :
    Kept w i k ({ l with point := p, exitCode := n }, c', k) where
  good :=
    { holds := fun g => by rw [h.holds g, hin]
      childless := h.childless
      opened := fun hp => h.opened (hop hp)
      locked := fun _ => by rw [hin]; exact h.locked hne
      fits := hf }
  sound := hk
  leaves := Leaves.refl

omit [DecidableEq ι] [DecidableEq F] in
/-- Actions of the child that leave the locks alone. -/
theorem Good.kept_child (h : Good w i l c k) (hk : k.Sound) (hf : Fits l.point c') :
    Kept w i k (l, c', k) :=
  ⟨⟨h.holds, h.childless, h.opened, h.locked, hf⟩, hk, Leaves.refl⟩

/-- The child closes its descriptor: it has no lock, and its locker's stays. -/
theorem Good.kept_childClose (h : Good w i l c k) (hk : k.Sound) (hf : Fits l.point c') :
    Kept w i k (l, c', k.close (.child i)) where
  good :=
    { holds := fun g => by simpa [close_holder hk] using h.holds g
      childless := fun g => by simp [close_holder hk]
      opened := fun hp => by simpa using h.opened hp
      locked := h.locked
      fits := hf }
  sound := hk.close
  leaves := leaves_close_child hk

/-- A live child fits only where its locker waits for it, or has ended; so does what it turns
into. -/
theorem Fits.of_live (h : Fits p c) (h1 : c ≠ .unborn) (h2 : c ≠ .reaped) (h1' : c' ≠ .unborn)
    (h2' : c' ≠ .reaped) : Fits p c' := by
  cases p with
  | waitpid => exact ⟨h1', h2'⟩
  | ended st => trivial
  | start | lockFileOpen | lockAcquire | execute => exact absurd h h1
  | lockRelease | lockFileClose | done => exact absurd h h2

omit [DecidableEq F] in
theorem Good.kept_lockFileOpen (h : Good w i l c k) (hk : k.Sound)
    (hp : l.point = .lockFileOpen) :
    Kept w i k ({ l with point := .lockAcquire }, c, k.opens (.locker i) (w.lockFile i)) where
  good :=
    { holds := fun g => by simpa [hp, Point.inside] using h.holds g
      childless := h.childless
      opened := fun _ => by simp [Locks.opens]
      locked := fun _ => by simpa [hp, Point.inside] using h.locked
      fits := by simpa [Fits, hp] using h.fits }
  sound := hk.opens (h.free (by simp [hp, Point.inside]))
  leaves := ⟨fun _ _ _ _ => Iff.rfl, fun q hq _ => by simp [Locks.opens, hq]⟩

theorem Good.kept_lockAcquire (h : Good w i l c k) (hk : k.Sound) (hp : l.point = .lockAcquire)
    (hl : k.setLock (.locker i) = some k') :
    Kept w i k ({ l with point := .execute, locked := 1 }, c, k') := by
  have hs := hk.setLock hl
  obtain ⟨f, hf, hfree, rfl⟩ := setLock_eq_some.mp hl
  have ho : k.opened (.locker i) = some (w.lockFile i) := h.opened (by simp [hp, Point.hasOpen])
  obtain rfl : f = w.lockFile i := Option.some.inj (hf.symm.trans ho)
  -- the lock was free: the locker did not have it before
  have hnone : k.holder (w.lockFile i) = none :=
    hfree.resolve_right (h.free (by simp [hp, Point.inside]) _)
  refine ⟨⟨fun g => ?_, fun g => ?_, fun _ => ho, fun _ => by simp [Point.inside], ?_⟩, hs, ?_⟩
  · by_cases hg : g = w.lockFile i
    · simp [hg, Point.inside]
    · simpa [hg] using h.free (by simp [hp, Point.inside]) g
  · by_cases hg : g = w.lockFile i
    · simp [hg]
    · simpa [hg] using h.childless g
  · simpa [Fits, hp] using h.fits
  · refine ⟨fun g q hq _ => ?_, fun _ _ _ => rfl⟩
    by_cases hg : g = w.lockFile i
    · simp [hg, hnone, Ne.symm hq]
    · simp [hg]

omit [DecidableEq F] in
theorem Good.kept_fork (h : Good w i l c k) (hk : k.Sound) (hp : l.point = .execute) :
    Kept w i k ({ l with point := .waitpid }, .close, k.fork (.locker i) (.child i)) where
  good :=
    { holds := fun g => by simpa [hp, Point.inside] using h.holds g
      childless := h.childless
      opened := fun _ => by simpa [Locks.fork] using h.opened (by simp [hp, Point.hasOpen])
      locked := fun _ => by simpa [hp, Point.inside] using h.locked
      fits := by simp [Fits] }
  sound := hk.fork h.childless
  leaves := ⟨fun _ _ _ _ => Iff.rfl, fun q _ hq => by simp [Locks.fork, hq]⟩

theorem Good.kept_lockRelease (h : Good w i l c k) (hk : k.Sound) (hp : l.point = .lockRelease) :
    Kept w i k ({ l with point := .lockFileClose, locked := 0 }, c, k.unlock (.locker i)) where
  good :=
    { holds := fun g => by simp [unlock_holder hk, Point.inside]
      childless := fun g => by simpa [unlock_holder hk] using h.childless g
      opened := fun _ => by simpa using h.opened (by simp [hp, Point.hasOpen])
      locked := fun _ => by simp [Point.inside]
      fits := by simpa [Fits, hp] using h.fits }
  sound := hk.unlock
  leaves := ⟨fun g q hq _ => by simp [unlock_holder hk, hq], fun _ _ _ => by simp⟩

theorem Good.kept_lockFileClose (h : Good w i l c k) (hk : k.Sound)
    (hp : l.point = .lockFileClose) :
    Kept w i k ({ l with point := .done }, c, k.close (.locker i)) where
  good :=
    { holds := fun g => by simp [close_holder hk, Point.inside]
      childless := fun g => by simpa [close_holder hk] using h.childless g
      opened := by simp [Point.hasOpen]
      locked := fun _ => by simpa [hp, Point.inside] using h.locked
      fits := by simpa [Fits, hp] using h.fits }
  sound := hk.close
  leaves := leaves_close_locker hk

/-- Every action of a locker or of its child keeps what holds of that locker, and does not touch
the others. -/
theorem Good.act (h : Good w i l c k) (hk : k.Sound) (ha : act w i l c k a = some q) :
    Kept w i k q := by
  cases a with
  | main =>
    obtain ⟨hp, ha⟩ := h.call_eq_some.mp ha
    split at ha
    · cases ha
      exact h.kept_exits hk _
    · cases ha
      exact h.kept_goto hk (by simp [hp, Point.inside]) (by simp [Point.hasOpen])
        (by simp [hp]) (by simpa [Fits, hp] using h.fits)
  | lockFileOpen =>
    obtain ⟨hp, ha⟩ := h.call_eq_some.mp ha
    cases ha
    exact h.kept_lockFileOpen hk hp
  | lockAcquire =>
    obtain ⟨hp, ha⟩ := h.call_eq_some.mp ha
    obtain ⟨k', hk', rfl⟩ := Option.map_eq_some_iff.mp ha
    exact h.kept_lockAcquire hk hp hk'
  | fork =>
    obtain ⟨hp, ha⟩ := h.call_eq_some.mp ha
    cases ha
    exact h.kept_fork hk hp
  | childClose =>
    simp only [Locker.act, Option.ite_none_right_eq_some, Option.some.injEq] at ha
    obtain ⟨rfl, rfl⟩ := ha
    exact h.kept_childClose hk (h.fits.of_live (by simp) (by simp) (by simp) (by simp))
  | execvp =>
    simp only [Locker.act, Option.ite_none_right_eq_some, Option.some.injEq] at ha
    obtain ⟨rfl, rfl⟩ := ha
    exact h.kept_child hk (h.fits.of_live (by simp) (by simp) (by simp) (by simp))
  | commandEnds status =>
    cases c with
    | running argv =>
      cases ha
      exact h.kept_child hk (h.fits.of_live (by simp) (by simp) (by simp) (by simp))
    | _ => cases ha
  | waitpid =>
    obtain ⟨hp, ha⟩ := h.call_eq_some.mp ha
    cases c with
    | ended status =>
      cases ha
      exact h.kept_goto hk (by simp [hp, Point.inside]) (by simp [hp, Point.hasOpen])
        (by simp [hp]) rfl
    | _ => cases ha
  | lockRelease =>
    obtain ⟨hp, ha⟩ := h.call_eq_some.mp ha
    cases ha
    exact h.kept_lockRelease hk hp
  | lockFileClose =>
    obtain ⟨hp, ha⟩ := h.call_eq_some.mp ha
    cases ha
    exact h.kept_lockFileClose hk hp
  | returns =>
    obtain ⟨hp, ha⟩ := h.call_eq_some.mp ha
    cases ha
    exact h.kept_exits hk _
  | fails p =>
    simp only [Locker.act, Option.ite_none_right_eq_some] at ha
    obtain ⟨hp, ha⟩ := h.call_eq_some.mp ha.2
    cases ha
    exact h.kept_exits hk _
  | childFails =>
    simp only [Locker.act, Option.ite_none_right_eq_some, Option.some.injEq] at ha
    obtain ⟨hc, rfl⟩ := ha
    refine h.kept_childClose hk (h.fits.of_live ?_ ?_ (by simp) (by simp)) <;>
      rcases hc with rfl | rfl <;> simp
  | childKilled signal core =>
    simp only [Locker.act, Option.ite_none_right_eq_some, Option.some.injEq] at ha
    obtain ⟨⟨hc, -⟩, rfl⟩ := ha
    refine h.kept_childClose hk (h.fits.of_live ?_ ?_ (by simp) (by simp)) <;>
      rcases hc with rfl | rfl <;> simp
  | killed p signal core =>
    simp only [Locker.act] at ha
    split at ha
    · cases ha
    · obtain ⟨-, rfl⟩ := by simpa using ha
      exact h.kept_exits hk _

/-- Events keep the invariant. -/
theorem Inv.step {s t : State ι F} {e : ι × Action} (h : Inv w s)
    (hs : step w s e = some t) : Inv w t := by
  obtain ⟨q, hq, rfl⟩ := Option.map_eq_some_iff.mp hs
  have hkept := (h.good e.1).act h.sound hq
  refine ⟨hkept.sound, fun i => ?_⟩
  by_cases hi : i = e.1
  · subst hi
    simpa using hkept.good
  · simpa [hi] using (h.good i).of_leaves hkept.leaves hi

omit [DecidableEq ι] [DecidableEq F] in
theorem inv_initial : Inv w (initial : State ι F) where
  sound := sound_free
  good i :=
    { holds := fun g => by simp [initial, Locks.free, Point.inside]
      childless := fun g => by simp [initial, Locks.free]
      opened := by simp [initial, Point.hasOpen]
      locked := fun _ => by simp [initial, Point.inside]
      fits := rfl }

/-- The invariant holds in every state that can be reached, whatever the order of the events. -/
theorem Reachable.inv {s : State ι F} (h : Reachable w s) : Inv w s := by
  obtain ⟨es, h⟩ := h
  exact h.keeps (fun _ _ _ hi ht => hi.step ht) inv_initial

end Steps

end LuaAdaLoad.Sysdeps.Locker
