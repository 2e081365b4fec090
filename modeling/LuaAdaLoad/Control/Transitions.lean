import Mathlib.Data.List.Basic
import Mathlib.Data.Option.Basic
import Mathlib.Logic.Function.Basic

/-!
# Transition systems

A system is given by what an event does to a state, if it can happen there: `next s e : Option S`.
A *trace* is a list of events that can happen one after the other. Several processes are one such
system: an interleaving of their steps is a trace.

The rules of this file: what every step keeps, a trace keeps (`Trace.keeps`); a system whose steps
are steps of another one, or invisible there, has its traces (`Trace.simulates`); a system whose
steps make a number smaller has no long traces (`Trace.length_le`), and if moreover it can always
go on until it has finished, then every trace can be continued to the end (`finishes`).
-/

namespace LuaAdaLoad.Control.Transitions

variable {S E A L : Type}

/-- The events `es` happen one after the other, and lead from `s` to `t`. -/
def Trace (next : S → E → Option S) (s : S) (es : List E) (t : S) : Prop :=
  es.foldlM next s = some t

variable {next : S → E → Option S} {s t u : S} {e : E} {es es' : List E}

theorem Trace.nil : Trace next s [] s := rfl

@[simp] theorem trace_nil : Trace next s [] t ↔ s = t := by
  simp [Trace]

theorem trace_cons : Trace next s (e :: es) u ↔ ∃ t, next s e = some t ∧ Trace next t es u := by
  simp [Trace, List.foldlM_cons, Option.bind_eq_some_iff]

theorem trace_append :
    Trace next s (es ++ es') u ↔ ∃ t, Trace next s es t ∧ Trace next t es' u := by
  simp [Trace, List.foldlM_append, Option.bind_eq_some_iff]

theorem trace_snoc : Trace next s (es ++ [e]) u ↔ ∃ t, Trace next s es t ∧ next t e = some u := by
  simp [trace_append, trace_cons]

/-- What holds in the beginning and is kept by every step holds in the end. -/
theorem Trace.keeps {I : S → Prop} (hI : ∀ s e t, I s → next s e = some t → I t) :
    ∀ {es : List E} {s t : S}, Trace next s es t → I s → I t
  | [], s, t, h, hs => by
    rw [trace_nil] at h
    exact h ▸ hs
  | e :: es, s, t, h, hs => by
    obtain ⟨u, hu, ht⟩ := trace_cons.mp h
    exact Trace.keeps hI ht (hI s e u hs hu)

/-- The same when only the steps by the events of the trace keep it. -/
theorem Trace.keeps_of {I : S → Prop} {P : E → Prop}
    (hI : ∀ s e t, P e → I s → next s e = some t → I t) :
    ∀ {es : List E} {s t : S}, (∀ e ∈ es, P e) → Trace next s es t → I s → I t
  | [], s, t, _, h, hs => by
    rw [trace_nil] at h
    exact h ▸ hs
  | e :: es, s, t, hP, h, hs => by
    obtain ⟨u, hu, ht⟩ := trace_cons.mp h
    have hu' := hI s e u (hP e List.mem_cons_self) hs hu
    exact Trace.keeps_of hI (fun e he => hP e (List.mem_cons_of_mem _ he)) ht hu'

/-- A step as another system sees it: as one of its steps, or not at all. -/
def Shows (next' : A → L → Option A) (l : Option L) (a a' : A) : Prop :=
  match l with
  | some l => next' a l = some a'
  | none => a' = a

/-- Each step is seen as a step of another system, or not at all: then the trace is seen as a trace
of that system. `I` is an invariant that the steps may rely on. -/
theorem Trace.simulates {next' : A → L → Option A} {I : S → Prop} {P : E → Prop} (abs : S → A)
    (seen : E → Option L) (hI : ∀ s e t, P e → I s → next s e = some t → I t)
    (hstep : ∀ s e t, P e → I s → next s e = some t → Shows next' (seen e) (abs s) (abs t)) :
    ∀ {es : List E} {s t : S}, (∀ e ∈ es, P e) → Trace next s es t → I s →
      Trace next' (abs s) (es.filterMap seen) (abs t)
  | [], s, t, _, h, _ => by
    rw [trace_nil] at h
    rw [h]
    exact Trace.nil
  | e :: es, s, t, hP, h, hs => by
    obtain ⟨u, hu, ht⟩ := trace_cons.mp h
    have hPe := hP e List.mem_cons_self
    have ih := Trace.simulates abs seen hI hstep (fun e he => hP e (List.mem_cons_of_mem _ he)) ht
      (hI s e u hPe hs hu)
    have h1 := hstep s e u hPe hs hu
    cases hl : seen e with
    | none =>
      rw [hl] at h1
      rw [List.filterMap_cons_none hl, ← h1]
      exact ih
    | some l =>
      rw [hl] at h1
      rw [List.filterMap_cons_some hl, trace_cons]
      exact ⟨_, h1, ih⟩

/-- A number that every step makes smaller bounds the length of the traces. -/
theorem Trace.length_le (rank : S → ℕ) (hr : ∀ s e t, next s e = some t → rank t < rank s) :
    ∀ {es : List E} {s t : S}, Trace next s es t → es.length + rank t ≤ rank s
  | [], s, t, h => by
    rw [trace_nil] at h
    simp [h]
  | e :: es, s, t, h => by
    obtain ⟨u, hu, ht⟩ := trace_cons.mp h
    have h1 := hr s e u hu
    have h2 := Trace.length_le rank hr ht
    rw [List.length_cons]
    omega

/-- If from every state in which `Final` does not hold an event of the kind `P` can happen, and
steps make a number smaller, then from everywhere events of that kind lead to a final state. -/
theorem finishes (rank : S → ℕ) {I Final : S → Prop} {P : E → Prop}
    (hr : ∀ s e t, next s e = some t → rank t < rank s)
    (hI : ∀ s e t, I s → next s e = some t → I t)
    (hgo : ∀ s, I s → ¬ Final s → ∃ e t, P e ∧ next s e = some t) (s : S) (hs : I s) :
    ∃ es t, (∀ e ∈ es, P e) ∧ Trace next s es t ∧ Final t := by
  induction h : rank s using Nat.strongRecOn generalizing s with
  | ind n ih =>
    by_cases hF : Final s
    · exact ⟨[], s, by simp, Trace.nil, hF⟩
    · obtain ⟨e, t, hPe, ht⟩ := hgo s hs hF
      obtain ⟨es, u, hP, hu, hFu⟩ := ih (rank t) (h ▸ hr s e t ht) t (hI s e t hs ht) rfl
      exact ⟨e :: es, u, by simpa using ⟨hPe, hP⟩, trace_cons.mpr ⟨t, ht, hu⟩, hFu⟩

end LuaAdaLoad.Control.Transitions
