import LuaAdaLoad.Sysdeps.Sections
import Mathlib.Algebra.Order.BigOperators.Group.Finset
import Mathlib.Data.Fintype.BigOperators

/-!
# How `sd-locker` ends

Finitely many lockers make finitely many steps, in any order and whatever fails, and as long as one
of them has not ended some call can be made or some command is still to end: a locker that waits
for the lock waits for a locker that can go on (`terminates`). A locker whose own calls succeed ends
with its child's exit status, having run the command exactly once, or not at all if the child ended
before (`outcome`).
-/

namespace LuaAdaLoad.Sysdeps.Endings

open LuaAdaLoad.System.RecordLocks LuaAdaLoad.Control.Transitions
open LuaAdaLoad.Sysdeps.Locker LuaAdaLoad.Sysdeps.Sections

variable {ι F : Type} [DecidableEq ι] [DecidableEq F] {w : Setting ι F} {s t : State ι F}

/-! ### Finitely many steps -/

/-- The steps that a locker has left, its child's included as long as it has none. -/
def pointRank : Point → ℕ
  | .start => 11
  | .lockFileOpen => 10
  | .lockAcquire => 9
  | .execute => 8
  | .waitpid => 4
  | .lockRelease => 3
  | .lockFileClose => 2
  | .done => 1
  | .ended _ => 0

/-- The steps that a child has left. -/
def childRank : Child → ℕ
  | .close => 3
  | .execvp => 2
  | .running _ => 1
  | _ => 0

/-- The steps that are left. -/
def rank [Fintype ι] (s : State ι F) : ℕ :=
  ∑ i, (pointRank (s.locker i).point + childRank (s.child i))

theorem pointRank_pos {p : Point} (h : ∀ st, p ≠ .ended st) : 0 < pointRank p := by
  cases p with
  | ended st => exact absurd rfl (h st)
  | _ => decide

/-- A call ends in an end, or as it should. -/
theorem call_cases {p : Point} {i : ι} {l : LockerState} {c : Child} {k : Locks (Process ι) F}
    {next : Option (Part ι F)} {q : Part ι F} (h : call p i l c k next = some q) :
    l.point = p ∧ (next = some q ∨ ∃ st, q = exits i l c k st) := by
  unfold call at h
  split at h
  case isTrue hp =>
    split at h
    · exact ⟨hp, Or.inl h⟩
    · exact ⟨hp, Or.inr ⟨_, (Option.some.inj h).symm⟩⟩
  case isFalse => cases h

theorem exits_rank {i : ι} {l : LockerState} {c : Child} {k : Locks (Process ι) F} {st : ℕ}
    (hp : 0 < pointRank l.point) :
    pointRank (exits i l c k st).1.point + childRank (exits i l c k st).2.1 <
      pointRank l.point + childRank c := by
  show 0 + childRank c < pointRank l.point + childRank c
  omega

/-- Every action is a step less. -/
theorem act_rank {i : ι} {l : LockerState} {c : Child} {k : Locks (Process ι) F} {a : Action}
    {q : Part ι F} (ha : act w i l c k a = some q) :
    pointRank q.1.point + childRank q.2.1 < pointRank l.point + childRank c := by
  cases a with
  | main =>
    obtain ⟨hp, ha | ⟨st, rfl⟩⟩ := call_cases ha
    · split at ha
      · cases ha
        exact exits_rank (by simp [hp, pointRank])
      · cases ha
        simp [hp, pointRank]
    · exact exits_rank (by simp [hp, pointRank])
  | lockFileOpen | lockRelease | lockFileClose =>
    obtain ⟨hp, ha | ⟨st, rfl⟩⟩ := call_cases ha
    · cases ha
      simp [hp, pointRank]
    · exact exits_rank (by simp [hp, pointRank])
  | lockAcquire =>
    obtain ⟨hp, ha | ⟨st, rfl⟩⟩ := call_cases ha
    · obtain ⟨k', -, rfl⟩ := Option.map_eq_some_iff.mp ha
      simp [hp, pointRank]
    · exact exits_rank (by simp [hp, pointRank])
  | fork =>
    obtain ⟨hp, ha | ⟨st, rfl⟩⟩ := call_cases ha
    · cases ha
      simp only [hp, pointRank, childRank]
      omega
    · exact exits_rank (by simp [hp, pointRank])
  | childClose | execvp =>
    simp only [act, Option.ite_none_right_eq_some, Option.some.injEq] at ha
    obtain ⟨rfl, rfl⟩ := ha
    simp [childRank]
  | commandEnds status =>
    cases c with
    | running argv =>
      cases ha
      simp [childRank]
    | _ => cases ha
  | waitpid =>
    obtain ⟨hp, ha | ⟨st, rfl⟩⟩ := call_cases ha
    · cases c with
      | ended status =>
        cases ha
        simp [hp, pointRank, childRank]
      | _ => cases ha
    · exact exits_rank (by simp [hp, pointRank])
  | returns =>
    obtain ⟨hp, ha | ⟨st, rfl⟩⟩ := call_cases ha
    · cases ha
      exact exits_rank (by simp [hp, pointRank])
    · exact exits_rank (by simp [hp, pointRank])
  | fails p =>
    simp only [act, Option.ite_none_right_eq_some] at ha
    have hpos : 0 < pointRank p := by
      refine pointRank_pos ?_
      rintro st rfl
      cases ha.1
    obtain ⟨hp, ha | ⟨st, rfl⟩⟩ := call_cases ha.2
    · cases ha
      exact exits_rank (hp ▸ hpos)
    · exact exits_rank (hp ▸ hpos)
  | childFails =>
    simp only [act, Option.ite_none_right_eq_some, Option.some.injEq] at ha
    obtain ⟨rfl | rfl, rfl⟩ := ha <;> simp [childRank]
  | childKilled signal core =>
    simp only [act, Option.ite_none_right_eq_some, Option.some.injEq] at ha
    obtain ⟨⟨rfl | rfl, -⟩, rfl⟩ := ha <;> simp [childRank]
  | killed p signal core =>
    simp only [act] at ha
    split at ha
    · cases ha
    case h_2 hne =>
      simp only [Option.ite_none_right_eq_some, Option.some.injEq] at ha
      obtain ⟨⟨hp, -⟩, rfl⟩ := ha
      exact exits_rank (hp ▸ pointRank_pos fun st h => hne st h)

theorem step_rank [Fintype ι] {e : ι × Action} (hs : step w s e = some t) : rank t < rank s := by
  obtain ⟨q, hq, rfl⟩ := Option.map_eq_some_iff.mp hs
  refine Finset.sum_lt_sum (fun i _ => ?_) ⟨e.1, Finset.mem_univ _, ?_⟩
  · by_cases hi : i = e.1
    · subst hi
      simpa using (act_rank hq).le
    · simp [hi]
  · simpa using act_rank hq

omit [DecidableEq ι] [DecidableEq F] in
theorem rank_initial [Fintype ι] : rank (initial : State ι F) = 11 * Fintype.card ι := by
  simp [rank, initial, pointRank, childRank, mul_comm]

/-! ### Some process can go on -/

/-- Calls that succeed, and commands that end. -/
def Ordinary : ι × Action → Prop
  | (_, .fails _) | (_, .childFails) | (_, .childKilled _ _) | (_, .killed _ _ _) => False
  | _ => True

/-- The locker and its command have ended. -/
def Over (s : State ι F) (i : ι) : Prop :=
  (∃ st, (s.locker i).point = .ended st) ∧ live (s.child i) = false

/-- Some call that succeeds can be made, or some command can end. -/
def GoesOn (w : Setting ι F) (s : State ι F) : Prop := ∃ e t, Ordinary e ∧ step w s e = some t

theorem goesOn_of_act {i : ι} {a : Action} {q : Part ι F} (ho : Ordinary (i, a))
    (h : act w i (s.locker i) (s.child i) s.locks a = some q) : GoesOn w s :=
  ⟨(i, a), _, ho, by rw [step, h]; rfl⟩

theorem goesOn_of_call {i : ι} {a : Action} {p : Point} {next : Option (Part ι F)} {q : Part ι F}
    (ho : Ordinary (i, a)) (hp : (s.locker i).point = p)
    (ha : act w i (s.locker i) (s.child i) s.locks a =
      call p i (s.locker i) (s.child i) s.locks next) (hn : next = some q) : GoesOn w s := by
  cases hb : asserted p (s.locker i).locked with
  | true => exact goesOn_of_act ho (ha.trans ((if_pos hp).trans ((if_pos hb).trans hn)))
  | false => exact goesOn_of_act ho (ha.trans ((if_pos hp).trans (if_neg (by simp [hb]))))

/-- A child that lives can go on. -/
theorem goesOn_of_live {i : ι} (h : live (s.child i)) : GoesOn w s := by
  cases hc : s.child i with
  | close => exact goesOn_of_act (i := i) (a := .childClose) trivial (if_pos hc)
  | execvp => exact goesOn_of_act (i := i) (a := .execvp) trivial (if_pos hc)
  | running argv =>
    exact goesOn_of_act (i := i) (a := .commandEnds 0) trivial (by rw [hc]; rfl)
  | unborn | ended st | reaped =>
    rw [hc] at h
    cases h

/-- A locker inside its section can go on, or its child can. -/
theorem goesOn_of_inside {i : ι} (h : Inv w s) (hp : (s.locker i).point.inside) : GoesOn w s := by
  have hf := (h.good i).fits
  cases hq : (s.locker i).point with
  | execute => exact goesOn_of_call (i := i) (a := .fork) trivial hq rfl rfl
  | waitpid =>
    by_cases hl : live (s.child i)
    · exact goesOn_of_live hl
    · rw [hq] at hf
      cases hc : s.child i with
      | ended st =>
        exact goesOn_of_call (i := i) (a := .waitpid) trivial hq rfl (by rw [hc])
      | unborn => exact absurd hc hf.1
      | reaped => exact absurd hc hf.2
      | close | execvp | running argv => exact absurd (by rw [hc]; rfl) hl
  | lockRelease => exact goesOn_of_call (i := i) (a := .lockRelease) trivial hq rfl rfl
  | start | lockFileOpen | lockAcquire | lockFileClose | done | ended st =>
    rw [hq] at hp
    cases hp

/-- As long as a locker or a command has not ended, something can go on: who waits for a lock waits
for a locker inside its section. -/
theorem goesOn {i : ι} (h : Inv w s) (hi : ¬ Over s i) : GoesOn w s := by
  by_cases hl : live (s.child i)
  · exact goesOn_of_live hl
  cases hp : (s.locker i).point with
  | start =>
    by_cases harg : (w.argv i).length < 4
    · exact goesOn_of_call (i := i) (a := .main) trivial hp rfl (if_pos harg)
    · exact goesOn_of_call (i := i) (a := .main) trivial hp rfl (if_neg harg)
  | lockFileOpen => exact goesOn_of_call (i := i) (a := .lockFileOpen) trivial hp rfl rfl
  | lockAcquire =>
    have ho := (h.good i).opened (by simp [hp, Point.hasOpen])
    cases hh : s.locks.holder (w.lockFile i) with
    | none =>
      exact goesOn_of_call (i := i) (a := .lockAcquire) trivial hp rfl
        (Option.map_eq_some_iff.mpr ⟨_, setLock_of_free ho hh, rfl⟩)
    | some p =>
      cases p with
      | locker j => exact goesOn_of_inside h (((h.good j).holds _).mp hh).2
      | child j => exact absurd hh ((h.good j).childless _)
  | execute | waitpid | lockRelease => exact goesOn_of_inside (i := i) h (by rw [hp]; rfl)
  | lockFileClose => exact goesOn_of_call (i := i) (a := .lockFileClose) trivial hp rfl rfl
  | done => exact goesOn_of_call (i := i) (a := .returns) trivial hp rfl rfl
  | ended st => exact absurd ⟨⟨st, hp⟩, by simpa using hl⟩ hi

/-- No run of `n` lockers is longer than `11 n` events, whatever the order and whatever fails; where
no call can succeed any more and no command is left to end, all lockers have ended; and from every
state that can be reached, successful calls and ends of commands lead there. -/
theorem terminates [Fintype ι] {es : List (ι × Action)} (h : Trace (step w) initial es s) :
    es.length ≤ 11 * Fintype.card ι ∧
    ((∀ e, Ordinary e → step w s e = none) → ∀ i, Over s i) ∧
    ∃ es' t, (∀ e ∈ es', Ordinary e) ∧ Trace (step w) s es' t ∧ ∀ i, Over t i := by
  have hinv : Inv w s := Reachable.inv ⟨es, h⟩
  have hgo : ∀ s : State ι F, Inv w s → ¬ (∀ i, Over s i) → GoesOn w s := by
    intro s hs hn
    obtain ⟨i, hi⟩ := not_forall.mp hn
    exact goesOn hs hi
  refine ⟨?_, fun hstuck => ?_, ?_⟩
  · have := h.length_le rank fun _ _ _ => step_rank
    rw [rank_initial] at this
    omega
  · by_contra hn
    obtain ⟨e, t, he, ht⟩ := hgo s hinv hn
    rw [hstuck e he] at ht
    cases ht
  · exact finishes rank (fun _ _ _ => step_rank) (fun _ _ _ hi ht => hi.step ht) hgo s
      hinv

theorem terminates_twoLockers : bothInside.length ≤ 11 * 2 ∧
    ∃ es t, (∀ e ∈ es, Ordinary e) ∧ Trace (step twoLockers) (afterEvents bothInside) es t ∧
      ∀ i, Over t i :=
  ⟨(terminates trace_bothInside).1, (terminates trace_bothInside).2.2⟩

/-! ### What a locker did -/

/-- The actions of the locker `i` and of its child, in order. -/
def actionsOf (i : ι) (es : List (ι × Action)) : List Action :=
  es.filterMap fun e => if e.1 = i then some e.2 else none

/-- The calls of a locker until its child exists. -/
def firstCalls : List Action := [.main, .lockFileOpen, .lockAcquire, .fork]

/-- What the child did, and the status it ended with: it ran the command once, or one of its own
calls failed, or a signal ended it before one of them. -/
inductive Ran : List Action → ℕ → Prop where
  | command (status : ℕ) : Ran [.childClose, .execvp, .commandEnds status] status
  | closeFails : Ran [.childFails] (exited 1)
  | execvpFails : Ran [.childClose, .childFails] (exited 1)
  | closeKilled (signal : ℕ) (core : Bool) :
    Ran [.childKilled signal core] (signalled signal core)
  | execvpKilled (signal : ℕ) (core : Bool) :
    Ran [.childClose, .childKilled signal core] (signalled signal core)

/-- What was done until a locker is at a point, if its calls succeeded. -/
def Past (w : Setting ι F) (i : ι) (l : LockerState) (c : Child) (as : List Action) : Prop :=
  match l.point with
  | .start => as = []
  | .ended status =>
    (w.argv i).length < 4 ∧ as = [.main] ∧ status = exited 1 ∨
    4 ≤ (w.argv i).length ∧ ∃ ran st, Ran ran st ∧ status = exited (wexitstatus st) ∧
      as = firstCalls ++ ran ++ [.waitpid, .lockRelease, .lockFileClose, .returns]
  | .lockFileOpen => 4 ≤ (w.argv i).length ∧ as = [.main]
  | .lockAcquire => 4 ≤ (w.argv i).length ∧ as = [.main, .lockFileOpen]
  | .execute => 4 ≤ (w.argv i).length ∧ as = [.main, .lockFileOpen, .lockAcquire]
  | .waitpid => 4 ≤ (w.argv i).length ∧
    match c with
    | .close => as = firstCalls
    | .execvp => as = firstCalls ++ [.childClose]
    | .running argv => argv = w.command i ∧ as = firstCalls ++ [.childClose, .execvp]
    | .ended st => ∃ ran, Ran ran st ∧ as = firstCalls ++ ran
    | _ => False
  | .lockRelease => 4 ≤ (w.argv i).length ∧ ∃ ran st, Ran ran st ∧
      l.exitCode = wexitstatus st ∧ as = firstCalls ++ ran ++ [.waitpid]
  | .lockFileClose => 4 ≤ (w.argv i).length ∧ ∃ ran st, Ran ran st ∧
      l.exitCode = wexitstatus st ∧ as = firstCalls ++ ran ++ [.waitpid, .lockRelease]
  | .done => 4 ≤ (w.argv i).length ∧ ∃ ran st, Ran ran st ∧
      l.exitCode = wexitstatus st ∧
      as = firstCalls ++ ran ++ [.waitpid, .lockRelease, .lockFileClose]

/-- A call of the locker itself fails, or a signal ends it. -/
def Action.breaks : Action → Bool
  | .fails _ | .killed _ _ _ => true
  | _ => false

theorem past_act {i : ι} {l : LockerState} {c : Child} {k : Locks (Process ι) F} {a : Action}
    {q : Part ι F} {as : List Action} (h : Good w i l c k) (ho : live c → l.point = .waitpid)
    (hb : Action.breaks a = false) (hp : Past w i l c as) (ha : act w i l c k a = some q) :
    Past w i q.1 q.2.1 (as ++ [a]) := by
  cases a with
  | main =>
    obtain ⟨hl, ha⟩ := h.call_eq_some.mp ha
    simp only [Past, hl] at hp
    split at ha
    case isTrue harg =>
      cases ha
      exact Or.inl ⟨harg, by simp [hp], rfl⟩
    case isFalse harg =>
      cases ha
      exact ⟨by omega, by simp [hp]⟩
  | lockFileOpen =>
    obtain ⟨hl, ha⟩ := h.call_eq_some.mp ha
    simp only [Past, hl] at hp
    cases ha
    exact ⟨hp.1, by simp [hp.2]⟩
  | lockAcquire =>
    obtain ⟨hl, ha⟩ := h.call_eq_some.mp ha
    simp only [Past, hl] at hp
    obtain ⟨k', -, rfl⟩ := Option.map_eq_some_iff.mp ha
    exact ⟨hp.1, by simp [hp.2]⟩
  | fork =>
    obtain ⟨hl, ha⟩ := h.call_eq_some.mp ha
    simp only [Past, hl] at hp
    cases ha
    exact ⟨hp.1, by simp [hp.2, firstCalls]⟩
  | childClose =>
    simp only [act, Option.ite_none_right_eq_some, Option.some.injEq] at ha
    obtain ⟨rfl, rfl⟩ := ha
    simp only [Past, ho rfl] at hp ⊢
    exact ⟨hp.1, by simp [hp.2]⟩
  | execvp =>
    simp only [act, Option.ite_none_right_eq_some, Option.some.injEq] at ha
    obtain ⟨rfl, rfl⟩ := ha
    simp only [Past, ho rfl] at hp ⊢
    exact ⟨hp.1, trivial, by simp [hp.2]⟩
  | commandEnds status =>
    cases c with
    | running argv =>
      cases ha
      simp only [Past, ho rfl] at hp ⊢
      exact ⟨hp.1, _, Ran.command status, by simp [hp.2.2]⟩
    | _ => cases ha
  | waitpid =>
    obtain ⟨hl, ha⟩ := h.call_eq_some.mp ha
    cases c with
    | ended st =>
      cases ha
      simp only [Past, hl] at hp
      obtain ⟨harg, ran, hran, rfl⟩ := hp
      exact ⟨harg, ran, st, hran, rfl, rfl⟩
    | _ => cases ha
  | lockRelease | lockFileClose =>
    obtain ⟨hl, ha⟩ := h.call_eq_some.mp ha
    cases ha
    simp only [Past, hl] at hp
    obtain ⟨harg, ran, st, hran, hx, rfl⟩ := hp
    exact ⟨harg, ran, st, hran, hx, by simp⟩
  | returns =>
    obtain ⟨hl, ha⟩ := h.call_eq_some.mp ha
    cases ha
    simp only [Past, hl] at hp
    obtain ⟨harg, ran, st, hran, hx, rfl⟩ := hp
    exact Or.inr ⟨harg, ran, st, hran, by rw [hx], by simp⟩
  | childFails =>
    simp only [act, Option.ite_none_right_eq_some, Option.some.injEq] at ha
    obtain ⟨rfl | rfl, rfl⟩ := ha
    · simp only [Past, ho rfl] at hp ⊢
      exact ⟨hp.1, _, Ran.closeFails, by simp [hp.2]⟩
    · simp only [Past, ho rfl] at hp ⊢
      exact ⟨hp.1, _, Ran.execvpFails, by simp [hp.2]⟩
  | childKilled signal core =>
    simp only [act, Option.ite_none_right_eq_some, Option.some.injEq] at ha
    obtain ⟨⟨rfl | rfl, -⟩, rfl⟩ := ha
    · simp only [Past, ho rfl] at hp ⊢
      exact ⟨hp.1, _, Ran.closeKilled signal core, by simp [hp.2]⟩
    · simp only [Past, ho rfl] at hp ⊢
      exact ⟨hp.1, _, Ran.execvpKilled signal core, by simp [hp.2]⟩
  | fails p | killed p signal core => cases hb

omit [DecidableEq ι] in
theorem not_abandons {i : ι} {a : Action} (hb : Action.breaks a = false) : ¬ Abandons (i, a) := by
  cases a with
  | fails p | killed p signal core => cases hb
  | _ => exact id

/-- What a locker whose calls succeed did, at any time of a run of the whole system. -/
theorem past_of_trace {i : ι} {es : List (ι × Action)} (h : Trace (step w) initial es s)
    (hes : ∀ a ∈ actionsOf i es, Action.breaks a = false) :
    (live (s.child i) → (s.locker i).point = .waitpid) ∧
      Past w i (s.locker i) (s.child i) (actionsOf i es) := by
  induction es using List.reverseRecOn generalizing s with
  | nil =>
    rw [trace_nil] at h
    subst h
    exact ⟨fun hl => (by cases hl), rfl⟩
  | append_singleton es e ih =>
    obtain ⟨t, ht, hs⟩ := trace_snoc.mp h
    have hinv : Inv w t := Reachable.inv ⟨es, ht⟩
    obtain ⟨j, a⟩ := e
    obtain ⟨q, hq, rfl⟩ := Option.map_eq_some_iff.mp hs
    by_cases hj : j = i
    · subst hj
      have happ : actionsOf j (es ++ [(j, a)]) = actionsOf j es ++ [a] := by
        simp [actionsOf]
      rw [happ] at hes ⊢
      have hb : Action.breaks a = false := hes a (by simp)
      obtain ⟨hlive, hpast⟩ := ih ht fun b hb => hes b (List.mem_append_left _ hb)
      have hgood := hinv.good j
      simp only [Function.update_self]
      exact ⟨(act_moves hgood hlive (not_abandons hb) hq).2, past_act hgood hlive hb hpast hq⟩
    · have happ : actionsOf i (es ++ [(j, a)]) = actionsOf i es := by
        simp [actionsOf, hj]
      rw [happ] at hes ⊢
      simp only [Function.update_of_ne (Ne.symm hj)]
      exact ih ht hes

theorem wexitstatus_eq (status : ℕ) : wexitstatus status = status / 256 % 256 := by
  have h : (0xff00 : ℕ) >>> 8 = 2 ^ 8 - 1 := by decide
  rw [wexitstatus, Nat.shiftRight_and_distrib, h, Nat.and_two_pow_sub_one_eq_mod,
    Nat.shiftRight_eq_div_pow]

theorem wexitstatus_exited (n : ℕ) : exited (wexitstatus (exited n)) = exited n := by
  rw [wexitstatus_eq, exited, exited]
  omega

theorem wexitstatus_signalled (n : ℕ) (core : Bool) : wexitstatus (signalled n core) = 0 := by
  rw [wexitstatus_eq, signalled]
  split <;> omega

/-- A locker whose own calls succeed, in any run of the system, made each of its calls once, and the
command ran once, with the lock held, or not at all because the child's `close` or `execvp` failed or
a signal ended the child before. It ends with the child's exit status; a child that a signal ended
counts as a success. -/
theorem outcome {i : ι} {es : List (ι × Action)} {status : ℕ}
    (h : Trace (step w) initial es s) (hes : ∀ a ∈ actionsOf i es, Action.breaks a = false)
    (hend : (s.locker i).point = .ended status) :
    (w.argv i).length < 4 ∧ actionsOf i es = [.main] ∧ status = exited 1 ∨
    4 ≤ (w.argv i).length ∧ ∃ ran st, Ran ran st ∧
      actionsOf i es =
        firstCalls ++ ran ++ [.waitpid, .lockRelease, .lockFileClose, .returns] ∧
      (∀ n, st = exited n → status = exited n) ∧
      ∀ n core, st = signalled n core → status = exited 0 := by
  obtain ⟨-, hpast⟩ := past_of_trace h hes
  simp only [Past, hend] at hpast
  rcases hpast with hpast | ⟨harg, ran, st, hran, rfl, has⟩
  · exact Or.inl hpast
  · refine Or.inr ⟨harg, ran, st, hran, has, ?_, ?_⟩
    · rintro n rfl
      exact wexitstatus_exited n
    · rintro n core rfl
      rw [wexitstatus_signalled]

theorem outcome_twoLockers :
    ∃ ran st, Ran ran st ∧ actionsOf false bothInside =
      firstCalls ++ ran ++ [.waitpid, .lockRelease, .lockFileClose, .returns] ∧
      (∀ n, st = exited n → exited 2 = exited n) ∧
      ∀ n core, st = signalled n core → exited 2 = exited 0 :=
  ((outcome trace_bothInside (by decide) rfl).resolve_left (by decide)).2

end LuaAdaLoad.Sysdeps.Endings
