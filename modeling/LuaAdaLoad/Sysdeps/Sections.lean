import LuaAdaLoad.Control.Mutex
import LuaAdaLoad.Sysdeps.Locker

/-!
# What `sd-locker` guarantees

Whatever the order of the events: the lock of a file is held by a live locker inside its section,
and by nobody else; two commands run under one lock file only when one of them was left behind by a
locker that ended before it (`Reachable.oneCommand`). If no locker ends while it waits for its
child, the system refines mutual exclusion (`sections_serial`): on each lock file the lockers'
sections follow one another.
-/

namespace LuaAdaLoad.Sysdeps.Sections

open LuaAdaLoad.System.RecordLocks LuaAdaLoad.Control.Transitions LuaAdaLoad.Control.Mutex
open LuaAdaLoad.Sysdeps.Locker

variable {ι F : Type} [DecidableEq ι] [DecidableEq F] {w : Setting ι F} {s t : State ι F}

/-- The child runs the command, or is about to. -/
def live : Child → Bool
  | .close | .execvp | .running _ => true
  | _ => false

/-- The locker of a live child waits for it, or has ended. -/
theorem point_of_live {p : Point} {c : Child} (h : Fits p c) (hc : live c) :
    p = .waitpid ∨ ∃ st, p = .ended st := by
  cases p with
  | waitpid => exact Or.inl rfl
  | ended st => exact Or.inr ⟨st, rfl⟩
  | start | lockFileOpen | lockAcquire | execute | lockRelease | lockFileClose | done =>
    subst h
    cases hc

/-- Left behind by a locker that ended. -/
def Orphan (s : State ι F) (i : ι) : Prop := live (s.child i) ∧ ∃ st, (s.locker i).point = .ended st

/-- At any time: assertions hold; who holds a lock is a locker of that file inside its section, and
has not ended; a command that is not left behind has its locker's lock; so two commands with one
lock file are not both in their lockers' care. -/
theorem Reachable.oneCommand (h : Reachable w s) :
    (∀ i, asserted (s.locker i).point (s.locker i).locked = true) ∧
    (∀ f p, s.locks.holder f = some p →
      ∃ i, p = .locker i ∧ w.lockFile i = f ∧ (s.locker i).point.inside) ∧
    (∀ i, live (s.child i) → Orphan s i ∨ s.locks.holder (w.lockFile i) = some (.locker i)) ∧
    ∀ i j, live (s.child i) → live (s.child j) → w.lockFile i = w.lockFile j →
      i = j ∨ Orphan s i ∨ Orphan s j := by
  have hinv := h.inv
  have hcare : ∀ i, live (s.child i) →
      Orphan s i ∨ s.locks.holder (w.lockFile i) = some (.locker i) := by
    intro i hi
    rcases point_of_live (hinv.good i).fits hi with hp | hp
    · right
      rw [(hinv.good i).holds]
      simp [hp, Point.inside]
    · exact Or.inl ⟨hi, hp⟩
  refine ⟨fun i => (hinv.good i).asserted, fun f p hf => ?_, hcare, fun i j hi hj hij => ?_⟩
  · cases p with
    | locker i =>
      obtain ⟨rfl, hin⟩ := ((hinv.good i).holds f).mp hf
      exact ⟨i, rfl, rfl, hin⟩
    | child i => exact absurd hf ((hinv.good i).childless f)
  · rcases hcare i hi with hi' | hi'
    · exact Or.inr (Or.inl hi')
    · rcases hcare j hj with hj' | hj'
      · exact Or.inr (Or.inr hj')
      · rw [hij, hj', Option.some.injEq, Process.locker.injEq] at hi'
        exact Or.inl hi'.symm

/-- Two lockers with one lock file. -/
def twoLockers : Setting Bool String where
  argv i := ["sd-locker", if i then "2" else "1", "sd-lock", "cc", if i then "b.c" else "a.c"]
  file := id

/-- The first locker runs its command; the second has opened the file. -/
def oneInside : List (Bool × Action) :=
  [(true, .main), (false, .main), (false, .lockFileOpen), (true, .lockFileOpen),
    (false, .lockAcquire), (false, .fork), (false, .childClose), (false, .execvp)]

/-- The state after some events of the two lockers. -/
def afterEvents (es : List (Bool × Action)) : State Bool String :=
  (es.foldlM (step twoLockers) initial).getD initial

theorem trace_oneInside : Trace (step twoLockers) initial oneInside (afterEvents oneInside) := rfl

theorem oneCommand_twoLockers :
    (afterEvents oneInside).child false = .running ["cc", "a.c"] ∧
    (step twoLockers (afterEvents oneInside) (true, .lockAcquire)).isNone ∧
    (afterEvents oneInside).locks.holder "sd-lock" = some (.locker false) :=
  ⟨rfl, rfl, ((Reachable.oneCommand ⟨oneInside, trace_oneInside⟩).2.2.1 false rfl).resolve_left
    (by rintro ⟨-, st, h⟩; cases h)⟩

/-! ### Sections -/

/-- A locker ends while it waits for its child. -/
def Abandons : ι × Action → Prop
  | (_, .fails .waitpid) | (_, .killed .waitpid _ _) => True
  | _ => False

/-- What an action means for the lock: its locker enters, acts under the lock, or leaves. -/
def deed (i : ι) : Action → Option (Deed ι Action)
  | .lockAcquire => some (.enters i)
  | .lockRelease => some (.leaves i)
  | .fails p => if p.inside then some (.leaves i) else none
  | .killed p _ _ => if p.inside then some (.leaves i) else none
  | .main | .lockFileOpen | .lockFileClose | .returns => none
  | a => some (.acts i a)

/-- The events of the lockers of one file. -/
def seen (w : Setting ι F) (f : F) (e : ι × Action) : Option (Deed ι Action) :=
  if w.lockFile e.1 = f then deed e.1 e.2 else none

/-- Who is inside: the locker that has the lock. -/
def insideOf (s : State ι F) (f : F) : Option ι :=
  match s.locks.holder f with
  | some (.locker i) => some i
  | _ => none

omit [DecidableEq ι] [DecidableEq F] in
theorem insideOf_eq_some {f : F} {i : ι} :
    insideOf s f = some i ↔ s.locks.holder f = some (.locker i) := by
  unfold insideOf
  split <;> simp_all

/-- Inside or not, before and after a deed of the locker `i`. -/
def Moves (i : ι) (d : Option (Deed ι Action)) (before after : Bool) : Prop :=
  match d with
  | some (.enters j) => j = i ∧ before = false ∧ after = true
  | some (.acts j _) => j = i ∧ before = true ∧ after = true
  | some (.leaves j) => j = i ∧ before = true ∧ after = false
  | none => before = false ∧ after = false

omit [DecidableEq ι] in
theorem moves_ended {i : ι} (p : Point) :
    Moves i (if p.inside then some (.leaves i : Deed ι Action) else none) p.inside false := by
  cases h : p.inside <;> simp [Moves]

/-- A locker that does not abandon its child moves in and out of its section by its deeds, and
leaves no child behind. -/
theorem act_moves {i : ι} {l : LockerState} {c : Child} {k : Locks (Process ι) F} {a : Action}
    {q : Part ι F} (h : Good w i l c k) (ho : live c → l.point = .waitpid)
    (hab : ¬ Abandons (i, a)) (ha : act w i l c k a = some q) :
    Moves i (deed i a) l.point.inside q.1.point.inside ∧
      (live q.2.1 → q.1.point = .waitpid) := by
  have hf := h.fits
  cases a with
  | main =>
    obtain ⟨hp, ha⟩ := h.call_eq_some.mp ha
    rw [hp] at hf
    subst hf
    split at ha <;> cases ha <;> simp [hp, deed, Moves, Point.inside, exits, live]
  | lockFileOpen =>
    obtain ⟨hp, ha⟩ := h.call_eq_some.mp ha
    rw [hp] at hf
    subst hf
    cases ha
    simp [hp, deed, Moves, Point.inside, live]
  | lockAcquire =>
    obtain ⟨hp, ha⟩ := h.call_eq_some.mp ha
    obtain ⟨k', -, rfl⟩ := Option.map_eq_some_iff.mp ha
    rw [hp] at hf
    subst hf
    simp [hp, deed, Moves, Point.inside, live]
  | fork =>
    obtain ⟨hp, ha⟩ := h.call_eq_some.mp ha
    cases ha
    simp [hp, deed, Moves, Point.inside]
  | childClose | execvp =>
    simp only [act, Option.ite_none_right_eq_some, Option.some.injEq] at ha
    obtain ⟨rfl, rfl⟩ := ha
    have hp := ho rfl
    simp [hp, deed, Moves, Point.inside]
  | commandEnds status =>
    cases c with
    | running argv =>
      cases ha
      have hp := ho rfl
      simp [hp, deed, Moves, Point.inside]
    | _ => cases ha
  | waitpid =>
    obtain ⟨hp, ha⟩ := h.call_eq_some.mp ha
    cases c with
    | ended status =>
      cases ha
      simp [hp, deed, Moves, Point.inside, live]
    | _ => cases ha
  | lockRelease =>
    obtain ⟨hp, ha⟩ := h.call_eq_some.mp ha
    rw [hp] at hf
    subst hf
    cases ha
    simp [hp, deed, Moves, Point.inside, live]
  | lockFileClose =>
    obtain ⟨hp, ha⟩ := h.call_eq_some.mp ha
    rw [hp] at hf
    subst hf
    cases ha
    simp [hp, deed, Moves, Point.inside, live]
  | returns =>
    obtain ⟨hp, ha⟩ := h.call_eq_some.mp ha
    rw [hp] at hf
    subst hf
    cases ha
    simp [hp, deed, Moves, Point.inside, live, exits]
  | fails p =>
    simp only [act, Option.ite_none_right_eq_some] at ha
    obtain ⟨hp, ha⟩ := h.call_eq_some.mp ha.2
    cases ha
    refine ⟨hp ▸ moves_ended l.point, fun hc => absurd ?_ hab⟩
    rw [← hp, ho hc]
    trivial
  | childFails =>
    simp only [act, Option.ite_none_right_eq_some, Option.some.injEq] at ha
    obtain ⟨hc, rfl⟩ := ha
    have hp := ho (by rcases hc with rfl | rfl <;> rfl)
    simp [hp, deed, Moves, Point.inside, live]
  | childKilled signal core =>
    simp only [act, Option.ite_none_right_eq_some, Option.some.injEq] at ha
    obtain ⟨⟨hc, -⟩, rfl⟩ := ha
    have hp := ho (by rcases hc with rfl | rfl <;> rfl)
    simp [hp, deed, Moves, Point.inside, live]
  | killed p signal core =>
    simp only [act] at ha
    split at ha
    · cases ha
    · simp only [Option.ite_none_right_eq_some, Option.some.injEq] at ha
      obtain ⟨⟨hp, -⟩, rfl⟩ := ha
      refine ⟨hp ▸ moves_ended l.point, fun hc => absurd ?_ hab⟩
      rw [← hp, ho hc]
      trivial

/-- Nothing is left behind: every live child has a locker that waits for it. -/
def Cared (s : State ι F) : Prop := ∀ i, live (s.child i) → (s.locker i).point = .waitpid

omit [DecidableEq ι] [DecidableEq F] in
theorem insideOf_self {i : ι} (hi : Inv w s) (f : F) :
    insideOf s f = some i ↔ w.lockFile i = f ∧ (s.locker i).point.inside := by
  rw [insideOf_eq_some, (hi.good i).holds, eq_comm (a := f)]

/-- An event of the locker `i` is about nobody else being inside or not. -/
theorem insideOf_other {i j : ι} {a : Action} (hi : Inv w s) (hs : step w s (i, a) = some t)
    (hj : j ≠ i) (f : F) : insideOf t f = some j ↔ insideOf s f = some j := by
  obtain ⟨q, hq, rfl⟩ := Option.map_eq_some_iff.mp hs
  rw [insideOf_eq_some, insideOf_eq_some]
  exact ((hi.good i).act hi.sound hq).leaves.holder f _ (by simpa) (by simp)

/-- An event is a step of mutual exclusion on a file, or does not matter there. -/
theorem insideOf_step {e : ι × Action} (hab : ¬ Abandons e) (hi : Inv w s) (hc : Cared s)
    (hs : step w s e = some t) (f : F) :
    Shows mutex (seen w f e) (insideOf s f) (insideOf t f) ∧ Cared t := by
  obtain ⟨i, a⟩ := e
  have ht : Inv w t := hi.step hs
  have hother : ∀ j ≠ i, insideOf t f = some j ↔ insideOf s f = some j :=
    fun j hj => insideOf_other hi hs hj f
  have hs' := insideOf_self (i := i) hi f
  have ht' := insideOf_self (i := i) ht f
  obtain ⟨hmove, hcare⟩ : Moves i (deed i a) (s.locker i).point.inside (t.locker i).point.inside ∧
      (live (t.child i) → (t.locker i).point = .waitpid) := by
    obtain ⟨q, hq, rfl⟩ := Option.map_eq_some_iff.mp hs
    simpa using act_moves (hi.good i) (hc i) hab hq
  refine ⟨?_, fun j hj => ?_⟩
  · unfold seen
    by_cases hf : w.lockFile i = f
    · simp only [hf, true_and] at hs' ht'
      simp only [hf, if_true]
      cases hd : deed i a with
      | none =>
        rw [hd] at hmove
        refine Option.ext fun j => ?_
        by_cases hj : j = i
        · subst hj
          rw [hs', ht', hmove.1, hmove.2]
        · exact hother j hj
      | some d =>
        rw [hd] at hmove
        cases d with
        | enters j =>
          obtain ⟨rfl, hbefore, hafter⟩ := hmove
          have hin : insideOf t f = some j := ht'.mpr hafter
          have hnone : insideOf s f = none := by
            rw [Option.eq_none_iff_forall_ne_some]
            intro j' hj'
            by_cases hjj : j' = j
            · subst hjj
              simp [hs', hbefore] at hj'
            · rw [← hother j' hjj, hin] at hj'
              exact hjj (Option.some.inj hj').symm
          simp [Shows, mutex, hnone, hin]
        | acts j b =>
          obtain ⟨rfl, hbefore, hafter⟩ := hmove
          simp [Shows, mutex, hs'.mpr hbefore, ht'.mpr hafter]
        | leaves j =>
          obtain ⟨rfl, hbefore, hafter⟩ := hmove
          have hin : insideOf s f = some j := hs'.mpr hbefore
          have hnone : insideOf t f = none := by
            rw [Option.eq_none_iff_forall_ne_some]
            intro j' hj'
            by_cases hjj : j' = j
            · subst hjj
              simp [ht', hafter] at hj'
            · rw [hother j' hjj, hin] at hj'
              exact hjj (Option.some.inj hj').symm
          simp [Shows, mutex, hnone, hin]
    · simp only [hf, if_false]
      refine Option.ext fun j => ?_
      by_cases hj : j = i
      · subst hj
        simp [hs', ht', hf]
      · exact hother j hj
  · by_cases hij : j = i
    · subst hij
      exact hcare hj
    · obtain ⟨q, -, rfl⟩ := Option.map_eq_some_iff.mp hs
      simp only [Function.update_of_ne hij] at hj ⊢
      exact hc j hj

/-- If no locker ends while it waits for its child, then, whatever the order of the events, the
sections of the lockers of a file follow one another: what happened is a list of whole sections,
each of one locker, and the beginning of one more if the lock is held, by its holder. -/
theorem sections_serial {es : List (ι × Action)} (hes : ∀ e ∈ es, ¬ Abandons e)
    (h : Trace (step w) initial es s) (f : F) :
    Serial (es.filterMap (seen w f)) (insideOf s f) := by
  refine mutex_trace ?_
  have hstep : ∀ s e t, ¬ Abandons e → Inv w s ∧ Cared s → step w s e = some t →
      Inv w t ∧ Cared t :=
    fun s e t hab hs ht => ⟨hs.1.step ht, (insideOf_step hab hs.1 hs.2 ht f).2⟩
  have h0 : Inv w (initial : State ι F) ∧ Cared (initial : State ι F) :=
    ⟨inv_initial, fun i hi => by cases hi⟩
  exact h.simulates (fun s => insideOf s f) (seen w f) hstep
    (fun s e t hab hs ht => (insideOf_step hab hs.1 hs.2 ht f).1) hes h0

/-- The first locker's command ends, the locker leaves, and the second one enters. -/
def bothInside : List (Bool × Action) :=
  oneInside ++ [(false, .commandEnds (exited 2)), (false, .waitpid), (false, .lockRelease),
    (true, .lockAcquire), (false, .lockFileClose), (true, .fork), (false, .returns)]

theorem trace_bothInside : Trace (step twoLockers) initial bothInside (afterEvents bothInside) :=
  rfl

theorem sections_serial_twoLockers :
    Serial (A := Action) [.enters false, .acts false .fork, .acts false .childClose, .acts false .execvp,
      .acts false (.commandEnds (exited 2)), .acts false .waitpid, .leaves false,
      .enters true, .acts true .fork] (some true) :=
  sections_serial (by simp [bothInside, oneInside, Abandons]) trace_bothInside "sd-lock"

end LuaAdaLoad.Sysdeps.Sections
