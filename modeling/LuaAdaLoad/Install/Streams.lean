import LuaAdaLoad.Install.Effects

/-!
# The streams of a copy

`install_file_copy` opens two streams. Its label `ERR` closes both, whatever has become of them: where
the temporary file cannot be opened it closes `NULL`, and where a stream cannot be closed or the file
not renamed it closes a closed stream. A run that does so ends `aborted`. In all other runs each stream
is closed once (`closesOnce_iff`).
-/

namespace LuaAdaLoad.Install.Streams

open LuaAdaLoad.Control.Actions LuaAdaLoad.Control.Weakest LuaAdaLoad.Control.Frames
open LuaAdaLoad.System.Paths LuaAdaLoad.System.FileSystem LuaAdaLoad.Install.Posix
open LuaAdaLoad.Install.Translation LuaAdaLoad.Install.Operators LuaAdaLoad.Install.Calls

/-! ### Each stream once -/

/-- The streams that `fopen` returned. -/
def openedOf (h : List Event) : List ℕ := h.filterMap fun
  | .opened k => some k
  | _ => none

/-- The streams that were passed to `fclose`. -/
def closedOf (h : List Event) : List ℕ := h.filterMap fun
  | .closed k => some k
  | _ => none

/-- The function returned, with whatever status. -/
def Returned {α : Type} : Ending Failure Machine α → Prop
  | .done _ _ => True
  | .raised _ _ => True
  | .aborted => False
  | .unfinished => False

/-- No call gets `NULL` or a closed stream, and if the function returns, the streams that were closed
are those that were opened, each once. -/
structure ClosesOnce (run : Run Failure Machine Event Unit) : Prop where
  valid : run.ending ≠ .aborted
  once : Returned run.ending →
    (openedOf run.log).Nodup ∧ (closedOf run.log).Perm (openedOf run.log)

/-! ### The condition -/

section Condition

variable (host : Host) (n : ℕ)

/-- The last three calls succeed, as far as they are made. -/
def ClosesWell (fdSrc fdDst : Option ℕ) (dstTmp dst : CString) (s : Machine) : Prop :=
  Afterwards host n (fclose fdDst) (fun ok t => ok = true ∧
    Afterwards host n (fclose fdSrc) (fun ok t => ok = true ∧
      Afterwards host n (rename dstTmp dst) (fun ok _ => ok = true) t) t) s

/-- If the temporary file can be flushed and get its mode and owners, the last three calls
succeed. -/
def WrittenWell (fdSrc fdDst : Option ℕ) (dstTmp dst : CString) (uid gid mode : ℕ) (s : Machine) :
    Prop :=
  Afterwards host n (fflush fdDst) (fun ok t => ok = true →
    Afterwards host n (chmod dstTmp mode) (fun ok t => ok = true →
      Afterwards host n (chown dstTmp uid gid) (fun ok t => ok = true →
        ClosesWell host n fdSrc fdDst dstTmp dst t) t) t) s

/-- If the source can be opened, so can the temporary file; and if the source can be copied, flushed
and attributed, the last three calls succeed. -/
def CopiesWell (src dst : CString) (uid gid mode : ℕ) (s : Machine) : Prop :=
  ∀ dstTmp, snprintf maxPathLen (dst ++ ".tmp".toList) = some dstTmp →
    Afterwards host n (fopenRead src) (fun fdSrc t => fdSrc ≠ none →
      Afterwards host n (fopenWrite dstTmp) (fun fdDst t => fdDst ≠ none ∧
        Afterwards host n (bounded (copyLoop fdSrc fdDst)) (fun failure t => failure = none →
          WrittenWell host n fdSrc fdDst dstTmp dst uid gid mode t) t) t) s

end Condition

/-! ### Actions on open streams -/

variable {α β : Type} {host : Host} {n : ℕ} {s t : Machine} {k k' : ℕ} {ks cs : List ℕ}

/-- The stream can be used. -/
def IsOpen (s : Machine) (k : ℕ) : Prop := s.streams k ≠ none

/-- The run goes on, with the same open streams. -/
def Continues (s : Machine) : Ending Failure Machine α → Prop
  | .done _ t => ∀ k, IsOpen t k ↔ IsOpen s k
  | .raised _ _ => False
  | .aborted => False
  | .unfinished => True

/-- An action that uses these streams, and neither opens nor closes any. -/
def Plain (ks : List ℕ) (x : Proc α) : Prop :=
  ∀ host n s, (∀ k ∈ ks, IsOpen s k) → (x host n s).log = [] ∧ Continues s (x host n s).ending

theorem plain_pure (a : α) : Plain ks (pure a) := fun _ _ _ _ => ⟨rfl, fun _ => Iff.rfl⟩

theorem plain_unfinished : Plain ks (unfinished : Proc α) := fun _ _ _ _ => ⟨rfl, trivial⟩

theorem plain_bind {x : Proc α} {f : α → Proc β} (hx : Plain ks x) (hf : ∀ a, Plain ks (f a)) :
    Plain ks (x >>= f) := fun host n s hs => by
  obtain ⟨hlog, hend⟩ := hx host n s hs
  rw [bind_run]
  rcases hrun : x host n s with ⟨l, ⟨a, t⟩ | ⟨e, t⟩ | _ | _⟩ <;> rw [hrun] at hlog hend
  · obtain ⟨hlog', hend'⟩ := hf a host n t fun k hk => (hend k).mpr (hs k hk)
    obtain rfl : l = [] := hlog
    rw [andThen_done]
    refine ⟨hlog', ?_⟩
    rcases hrun' : (f a host n t).ending with ⟨b, u⟩ | ⟨e, u⟩ | _ | _ <;> rw [hrun'] at hend'
    · exact fun k => (hend' k).trans (hend k)
    · exact hend'
    · exact hend'
    · trivial
  · exact absurd hend id
  · exact absurd hend id
  · exact ⟨hlog, trivial⟩

theorem plain_ite {c : Prop} [Decidable c] {x y : Proc α} (hx : Plain ks x) (hy : Plain ks y) :
    Plain ks (if c then x else y) := by
  split_ifs
  · exact hx
  · exact hy

theorem plain_bounded {x : ℕ → Proc α} (hx : ∀ n, Plain ks (x n)) : Plain ks (bounded x) :=
  fun host n s hs => hx n host n s hs

theorem plain_step {g : Host → Machine → α × Machine}
    (hg : ∀ host s, (g host s).2.streams = s.streams) : Plain ks (step g) :=
  fun host _ s _ => ⟨rfl, fun k => by rw [IsOpen, hg, IsOpen]⟩

theorem plain_query (g : Machine → Except Errno α) : Plain ks (query g) :=
  plain_step fun host s => by
    rcases host.fault s.calls with _ | e
    · rcases g s with e | a
      · rfl
      · rfl
    · rfl

theorem plain_change (g : Host → Machine → Except Errno FileSys) : Plain ks (change g) :=
  plain_step fun host s => by
    rcases host.fault s.calls with _ | e
    · rcases g host s with e | fs
      · rfl
      · rfl
    · rfl

theorem plain_withStream {x : ℕ → Stream → Proc α} (hk : k ∈ ks)
    (hx : ∀ f host n s, s.streams k = some f →
      (x k f host n s).log = [] ∧ Continues s (x k f host n s).ending) :
    Plain ks (withStream (some k) x) := fun host n s hs => by
  rcases hf : s.streams k with _ | f
  · exact absurd hf (hs k hk)
  · have hrun : withStream (some k) x host n s = x k f host n s := by
      simp [withStream, hf]
    rw [hrun]
    exact hx f host n s hf

/-- An open stream that is used stays open. -/
theorem isOpen_update {f f' : Stream} (hf : s.streams k = some f)
    (ht : t.streams = Function.update s.streams k (some f')) (j : ℕ) : IsOpen t j ↔ IsOpen s j := by
  rw [IsOpen, ht, IsOpen]
  rcases eq_or_ne j k with rfl | hne
  · simp [hf]
  · rw [Function.update_of_ne hne]

theorem readFrom_streams (s : Machine) (host : Host) (size k : ℕ) (f : Stream) :
    ∃ f', (s.readFrom host size k f).2.streams = Function.update s.streams k (some f') := by
  unfold Machine.readFrom
  split
  · exact ⟨_, rfl⟩
  · exact ⟨_, rfl⟩

theorem writeTo_streams (s : Machine) (host : Host) (bytes : CString) (k : ℕ) (f : Stream) :
    ∃ f', (s.writeTo host bytes k f).2.streams = Function.update s.streams k (some f') := by
  unfold Machine.writeTo
  split
  · exact ⟨_, rfl⟩
  · exact ⟨_, rfl⟩

theorem plain_fread (hk : k ∈ ks) (size : ℕ) : Plain ks (fread size (some k)) := by
  refine plain_withStream hk fun f host n s hf => ⟨rfl, ?_⟩
  obtain ⟨f', hf'⟩ := readFrom_streams s host size k f
  exact isOpen_update hf hf'

theorem plain_fwrite (hk : k ∈ ks) (bytes : CString) : Plain ks (fwrite bytes (some k)) := by
  refine plain_withStream hk fun f host n s hf => ⟨rfl, ?_⟩
  obtain ⟨f', hf'⟩ := writeTo_streams s host bytes k f
  exact isOpen_update hf hf'

theorem plain_feof (hk : k ∈ ks) : Plain ks (feof (some k)) :=
  plain_withStream hk fun _ _ _ _ _ => ⟨rfl, fun _ => Iff.rfl⟩

theorem plain_ferror (hk : k ∈ ks) : Plain ks (ferror (some k)) :=
  plain_withStream hk fun _ _ _ _ _ => ⟨rfl, fun _ => Iff.rfl⟩

theorem plain_fflush (hk : k ∈ ks) : Plain ks (fflush (some k)) :=
  plain_withStream hk fun _ host n s _ =>
    have hx : Plain [] (query (fun _ => .ok ()) >>= fun o : Option Unit => pure o.isSome) :=
      plain_bind (plain_query _) fun _ => plain_pure _
    hx host n s (by simp)

theorem plain_writeOut (hk : k ∈ ks) (i : ℕ) (buf : CString) : Plain ks (writeOut (some k) i buf) := by
  induction i generalizing buf with
  | zero => exact plain_unfinished
  | succ i ih =>
    refine plain_ite (plain_pure _) (plain_bind (plain_fwrite hk _) fun w => plain_ite ?_ (ih _))
    refine plain_bind (plain_feof hk) fun b => plain_ite (plain_pure _) ?_
    exact plain_bind (plain_ferror hk) fun b => plain_ite (plain_pure _) (ih _)

theorem plain_copyLoop (hk : k ∈ ks) (hk' : k' ∈ ks) (i : ℕ) :
    Plain ks (copyLoop (some k) (some k') i) := by
  induction i with
  | zero => exact plain_unfinished
  | succ i ih =>
    refine plain_bind (plain_fread hk _) fun buf => ?_
    refine plain_bind (plain_feof hk) fun b => plain_ite (plain_pure _) ?_
    refine plain_bind (plain_ferror hk) fun b => plain_ite (plain_pure _) ?_
    exact plain_bind (plain_bounded fun i => plain_writeOut hk' i _) fun b =>
      plain_ite ih (plain_pure _)

/-! ### The streams that are left to close -/

/-- A part of the function that gets no bad stream just if `P`, and closes just these streams, in this
order, before it returns. -/
structure Finishes (cs : List ℕ) (P : Prop) (run : Run Failure Machine Event α) : Prop where
  valid : run.ending ≠ .aborted ↔ P
  once : Returned run.ending → openedOf run.log = [] ∧ closedOf run.log = cs

theorem Finishes.of_iff {P Q : Prop} {run : Run Failure Machine Event α} (h : Finishes cs P run)
    (hPQ : P ↔ Q) : Finishes cs Q run := ⟨h.valid.trans hPQ, h.once⟩

theorem finishes_bind {x : Proc α} {f : α → Proc β} {P : α → Machine → Prop} (hx : Plain ks x)
    (hs : ∀ k ∈ ks, IsOpen s k) (hf : ∀ a t, (∀ k, IsOpen t k ↔ IsOpen s k) →
      Finishes cs (P a t) (f a host n t)) :
    Finishes cs (Afterwards host n x P s) ((x >>= f) host n s) := by
  obtain ⟨hlog, hend⟩ := hx host n s hs
  rw [bind_run]
  rcases hrun : x host n s with ⟨l, ⟨a, t⟩ | ⟨e, t⟩ | _ | _⟩ <;> rw [hrun] at hlog hend
  · obtain rfl : l = [] := hlog
    exact (hf a t hend).of_iff (afterwards_of_ending (congrArg Run.ending hrun)).symm
  · exact absurd hend id
  · exact absurd hend id
  · refine ⟨iff_of_true (by simp) fun a t h => ?_, fun h => absurd h id⟩
    rw [hrun] at h
    exact absurd h (by simp)

/-- `fclose` closes an open stream, whatever it returns. -/
theorem run_fclose (host : Host) (n : ℕ) (hs : IsOpen s k) :
    ∃ ok t, fclose (some k) host n s = ⟨[.closed k], .done ok t⟩ ∧
    t.streams = Function.update s.streams k none := by
  rcases hf : s.streams k with _ | f
  · exact absurd hf hs
  rcases hfault : host.fault s.calls with _ | e
  · refine ⟨true, { s.afterCall none with streams := Function.update s.streams k none }, ?_, rfl⟩
    simp [fclose, withStream, hf, setStream, query, step, hfault, Machine.afterCall]
  · refine ⟨false, { s.afterCall (some e) with streams := Function.update s.streams k none }, ?_, rfl⟩
    simp [fclose, withStream, hf, setStream, query, step, hfault, Machine.afterCall]

theorem finishes_fclose {f : Bool → Proc α} {P : Bool → Machine → Prop} (hs : IsOpen s k)
    (hf : ∀ ok t, (∀ j, IsOpen t j ↔ j ≠ k ∧ IsOpen s j) → Finishes cs (P ok t) (f ok host n t)) :
    Finishes (k :: cs) (Afterwards host n (fclose (some k)) P s)
      ((fclose (some k) >>= f) host n s) := by
  obtain ⟨ok, t, hrun, ht⟩ := run_fclose host n hs
  have hopen : ∀ j, IsOpen t j ↔ j ≠ k ∧ IsOpen s j := fun j => by
    rw [IsOpen, ht]
    rcases eq_or_ne j k with rfl | hne
    · simp
    · simp [hne, IsOpen]
  have hrest := hf ok t hopen
  rw [bind_run, hrun, andThen_done]
  refine ⟨hrest.valid.trans (afterwards_of_ending (congrArg Run.ending hrun)).symm, fun hret => ?_⟩
  obtain ⟨hopened, hclosed⟩ := hrest.once hret
  exact ⟨hopened, congrArg (k :: ·) hclosed⟩

theorem finishes_badStream {f : Bool → Proc α} {stream : Option ℕ}
    (hs : ∀ k, stream = some k → ¬ IsOpen s k) :
    Finishes cs False ((fclose stream >>= f) host n s) := by
  have haborted : fclose stream host n s = ⟨[], .aborted⟩ := by
    rcases stream with _ | k
    · rfl
    · have hnone : s.streams k = none := not_not.mp (hs k rfl)
      simp [fclose, withStream, hnone]
  rw [bind_run, haborted, andThen_aborted]
  exact ⟨by simp, fun h => absurd h id⟩

/-! ### Errors -/

theorem finishes_copyFailed (hne : k ≠ k') (hs : ∀ j ∈ [k, k'], IsOpen s j) (dstTmp : CString)
    (message : String) :
    Finishes [k', k] True (copyFailed (some k) (some k') dstTmp message host n s) := by
  have htrue : ∀ {α : Type} {x : Proc α} {s : Machine},
      Afterwards host n x (fun _ _ => True) s ↔ True := iff_true_intro fun _ _ _ => trivial
  refine (finishes_fclose (hs k' (by simp)) fun _ t ht => ?_).of_iff htrue
  refine (finishes_fclose ((ht k).mpr ⟨hne, hs k (by simp)⟩) fun _ u _ => ?_).of_iff htrue
  have hunlink : Plain [] (unlink dstTmp) := plain_change _
  refine (finishes_bind hunlink (by simp) fun _ v _ => ?_).of_iff htrue
  exact ⟨by simp [fail], fun _ => ⟨rfl, rfl⟩⟩

/-- The label `ERR` with a bad stream. -/
theorem finishes_copyFailed_bad {fdSrc fdDst : Option ℕ} (hs : ∀ k, fdDst = some k → ¬ IsOpen s k)
    (dstTmp : CString) (message : String) :
    Finishes cs False (copyFailed fdSrc fdDst dstTmp message host n s) := finishes_badStream hs

/-! ### The end of a copy -/

theorem finishes_ite {ok : Bool} {x y : Proc Unit} {P Q : Prop} (hx : Finishes cs Q (x host n s))
    (hy : Finishes cs P (y host n s)) :
    Finishes cs ((ok = true → P) ∧ (ok = false → Q)) ((if !ok then x else y) host n s) := by
  cases ok with
  | true => simpa using hy
  | false => simpa using hx

/-- When the end of a copy closes both streams once. -/
theorem finishes_copyWritten (hne : k ≠ k') (hs : ∀ j ∈ [k, k'], IsOpen s j)
    (dstTmp dst : CString) (uid gid mode : ℕ) :
    Finishes [k', k] (WrittenWell host n (some k) (some k') dstTmp dst uid gid mode s)
      (copyWritten (some k) (some k') dstTmp dst uid gid mode host n s) := by
  have hsrc : k ∈ [k, k'] := by simp
  have hdst : k' ∈ [k, k'] := by simp
  have hgood : ∀ {ok : Bool} {P : Prop}, (ok = true → P) ∧ (ok = false → True) ↔ (ok = true → P) := by
    simp
  have hbad : ∀ {ok : Bool} {P : Prop}, (ok = true → P) ∧ (ok = false → False) ↔ ok = true ∧ P := by
    intro ok P
    cases ok <;> simp
  refine finishes_bind (plain_fflush hdst) hs fun _ t ht => ?_
  have hs : ∀ j ∈ [k, k'], IsOpen t j := fun j hj => (ht j).mpr (hs j hj)
  refine (finishes_ite (finishes_copyFailed hne hs _ _) ?_).of_iff hgood
  refine finishes_bind (plain_change _) hs fun _ t ht => ?_
  have hs : ∀ j ∈ [k, k'], IsOpen t j := fun j hj => (ht j).mpr (hs j hj)
  refine (finishes_ite (finishes_copyFailed hne hs _ _) ?_).of_iff hgood
  refine finishes_bind (plain_change _) hs fun _ t ht => ?_
  have hs : ∀ j ∈ [k, k'], IsOpen t j := fun j hj => (ht j).mpr (hs j hj)
  refine (finishes_ite (finishes_copyFailed hne hs _ _) ?_).of_iff hgood
  refine finishes_fclose (hs k' hdst) fun _ u hu => ?_
  -- from here on `ERR` closes a closed stream
  have hclosed : ¬ IsOpen u k' := fun h => ((hu k').mp h).1 rfl
  have hsome : ∀ {v : Machine}, ¬ IsOpen v k' → ∀ j, some k' = some j → ¬ IsOpen v j :=
    fun h j hj => Option.some.inj hj ▸ h
  refine (finishes_ite (finishes_copyFailed_bad (hsome hclosed) _ _) ?_).of_iff hbad
  refine finishes_fclose ((hu k).mpr ⟨hne, hs k hsrc⟩) fun _ v hv => ?_
  have hclosed : ¬ IsOpen v k' := fun h => hclosed ((hv k').mp h).2
  refine (finishes_ite (finishes_copyFailed_bad (hsome hclosed) _ _) ?_).of_iff hbad
  have hrename : Plain [] (rename dstTmp dst) := plain_change _
  refine finishes_bind hrename (by simp) fun ok w hw => ?_
  have hclosed : ¬ IsOpen w k' := fun h => hclosed ((hw k').mp h)
  have hpure : Finishes [] True ((pure () : Proc Unit) host n w) := ⟨by simp, fun _ => ⟨rfl, rfl⟩⟩
  refine (finishes_ite (finishes_copyFailed_bad (hsome hclosed) _ _) hpure).of_iff ?_
  rw [hbad, and_true]

/-! ### Opening streams -/

/-- An action that opens a new stream or none. -/
def Opens (host : Host) (n : ℕ) (x : Proc (Option ℕ)) (s : Machine) : Prop :=
  (∃ t, x host n s = ⟨[], .done none t⟩) ∨
    ∃ k t, x host n s = ⟨[.opened k], .done (some k) t⟩ ∧ s.calls < k ∧ t.calls = k ∧
      ∀ j, IsOpen t j ↔ j = k ∨ IsOpen s j

theorem opens_openStream {x : Proc (Option Place)} (hx : ∃ o t, x host n s = ⟨[], .done o t⟩ ∧
    t.calls = s.calls + 1 ∧ t.streams = s.streams) :
    Opens host n (x >>= fun o => match o with
      | none => pure none
      | some p => openStream p >>= fun k => pure (some k)) s := by
  obtain ⟨o, t, hrun, hcalls, hstreams⟩ := hx
  rcases o with _ | p
  · left
    exact ⟨t, by simp [hrun]⟩
  · refine .inr ⟨t.calls, opening t p, by simp [hrun, openStream, opening], by omega, rfl, fun j => ?_⟩
    rcases eq_or_ne j t.calls with rfl | hne
    · simp [IsOpen, opening]
    · simp [IsOpen, opening, hne, hstreams]

theorem opens_fopenRead (path : CString) : Opens host n (fopenRead path) s := by
  refine opens_openStream ?_
  rcases hfault : host.fault s.calls with _ | e
  · rcases hfile : s.file path with e | p
    · exact ⟨none, s.afterCall (some e), by simp [query, step, hfault, hfile], rfl, rfl⟩
    · exact ⟨some p, s.afterCall none, by simp [query, step, hfault, hfile], rfl, rfl⟩
  · exact ⟨none, s.afterCall (some e), by simp [query, step, hfault], rfl, rfl⟩

theorem opens_fopenWrite (path : CString) : Opens host n (fopenWrite path) s := by
  refine opens_openStream ?_
  rcases hfault : host.fault s.calls with _ | e
  · rcases hopen : s.fs.openWrite s.cwd path (host.masked 511 438) host.uid host.gid with e | ⟨p, fs⟩
    · exact ⟨none, s.afterCall (some e), by simp [create, step, hfault, hopen], rfl, rfl⟩
    · exact ⟨some p, { s.afterCall none with fs := fs }, by simp [create, step, hfault, hopen],
        rfl, rfl⟩
  · exact ⟨none, s.afterCall (some e), by simp [create, step, hfault], rfl, rfl⟩

/-! ### The whole copy -/

/-- The whole function opens two streams, and its rest closes them. -/
theorem closesOnce_iff_valid {l : List Event} {run : Run Failure Machine Event Unit} {P : Prop}
    (hne : k ≠ k') (hopened : openedOf l = [k, k']) (hclosed : closedOf l = [])
    (hrun : Finishes [k', k] P run) : ClosesOnce ⟨l ++ run.log, run.ending⟩ ↔ P := by
  rw [← hrun.valid]
  refine ⟨fun h => h.valid, fun hvalid => ⟨hvalid, fun hret => ?_⟩⟩
  obtain ⟨ho, hc⟩ := hrun.once hret
  have hopened' : openedOf (l ++ run.log) = [k, k'] := by
    rw [openedOf, List.filterMap_append, ← openedOf, ← openedOf, hopened, ho, List.append_nil]
  have hclosed' : closedOf (l ++ run.log) = [k', k] := by
    rw [closedOf, List.filterMap_append, ← closedOf, ← closedOf, hclosed, hc, List.nil_append]
  rw [hopened', hclosed']
  exact ⟨by simpa using hne, List.Perm.swap k k' []⟩

/-- The part of `install_file_copy` in which both streams are open. -/
def copying (k k' : ℕ) (dstTmp dst : CString) (uid gid mode : ℕ) : Proc Unit := do
  match ← bounded (copyLoop (some k) (some k')) with
  | some message => copyFailed (some k) (some k') dstTmp message
  | none => copyWritten (some k) (some k') dstTmp dst uid gid mode

theorem finishes_copying (hne : k ≠ k') (hs : ∀ j ∈ [k, k'], IsOpen s j)
    (dstTmp dst : CString) (uid gid mode : ℕ) :
    Finishes [k', k]
      (Afterwards host n (bounded (copyLoop (some k) (some k'))) (fun failure t => failure = none →
        WrittenWell host n (some k) (some k') dstTmp dst uid gid mode t) s)
      (copying k k' dstTmp dst uid gid mode host n s) := by
  have hplain : Plain [k, k'] (bounded (copyLoop (some k) (some k'))) :=
    plain_bounded fun i => plain_copyLoop (by simp) (by simp) i
  refine finishes_bind hplain hs fun failure t ht => ?_
  have hs : ∀ j ∈ [k, k'], IsOpen t j := fun j hj => (ht j).mpr (hs j hj)
  rcases failure with _ | message
  · exact (finishes_copyWritten hne hs _ _ _ _ _).of_iff (by simp)
  · exact (finishes_copyFailed hne hs _ _).of_iff (by simp)

section Runs

variable {src dst dstTmp : CString} {uid gid mode : ℕ} {u : Machine}

theorem run_untemporary (htmp : snprintf maxPathLen (dst ++ ".tmp".toList) = none) :
    ∃ e, fileCopy src dst uid gid mode host n s = ⟨[.deed (.copy dst) s], .raised e s⟩ := by
  unfold fileCopy
  rw [htmp]
  exact ⟨_, rfl⟩

theorem run_unread (htmp : snprintf maxPathLen (dst ++ ".tmp".toList) = some dstTmp)
    (hread : fopenRead src host n s = ⟨[], .done none t⟩) :
    ∃ e, fileCopy src dst uid gid mode host n s = ⟨[.deed (.copy dst) s], .raised e t⟩ := by
  unfold fileCopy
  rw [htmp]
  refine ⟨⟨.error, "could not open source file".toList⟩, ?_⟩
  simp only [doing, bind_run, hread, get_run, note_run, andThen_done, Option.isNone_none, if_true]
  rfl

theorem run_unwritten (htmp : snprintf maxPathLen (dst ++ ".tmp".toList) = some dstTmp)
    (hread : fopenRead src host n s = ⟨[.opened k], .done (some k) t⟩)
    (hwrite : fopenWrite dstTmp host n t = ⟨[], .done none u⟩) :
    fileCopy src dst uid gid mode host n s = ⟨[.deed (.copy dst) s, .opened k], .aborted⟩ := by
  unfold fileCopy
  rw [htmp]
  simp [doing, hread, hwrite, copyFailed, fclose, withStream]

theorem run_copying (htmp : snprintf maxPathLen (dst ++ ".tmp".toList) = some dstTmp)
    (hread : fopenRead src host n s = ⟨[.opened k], .done (some k) t⟩)
    (hwrite : fopenWrite dstTmp host n t = ⟨[.opened k'], .done (some k') u⟩) :
    fileCopy src dst uid gid mode host n s =
      ⟨[.deed (.copy dst) s, .opened k, .opened k'] ++ (copying k k' dstTmp dst uid gid mode host n u).log,
        (copying k k' dstTmp dst uid gid mode host n u).ending⟩ := by
  unfold fileCopy
  rw [htmp]
  simp only [doing, bind_run, hread, get_run, note_run, andThen_done, Option.isNone_some,
    Bool.false_eq_true, if_false, hwrite]
  rfl

end Runs

theorem closesOnce_unopened {d : Deed} {e : Failure} :
    ClosesOnce ⟨[.deed d s], .raised e t⟩ :=
  ⟨by simp, fun _ => ⟨List.nodup_nil, List.Perm.refl _⟩⟩

/-- **Each stream is closed once** just if the temporary file can be opened, and the streams can be
closed and the file renamed where it comes to that. -/
theorem closesOnce_iff (src dst : CString) (uid gid mode : ℕ) (host : Host) (n : ℕ) (s : Machine) :
    ClosesOnce (fileCopy src dst uid gid mode host n s) ↔
      CopiesWell host n src dst uid gid mode s := by
  rcases htmp : snprintf maxPathLen (dst ++ ".tmp".toList) with _ | dstTmp
  · obtain ⟨e, hrun⟩ : ∃ e, fileCopy src dst uid gid mode host n s =
      ⟨[.deed (.copy dst) s], .raised e s⟩ := run_untemporary htmp
    rw [hrun]
    exact iff_of_true closesOnce_unopened fun dstTmp h => absurd (htmp.symm.trans h) (by simp)
  have hcond : CopiesWell host n src dst uid gid mode s ↔
      Afterwards host n (fopenRead src) (fun fdSrc t => fdSrc ≠ none →
        Afterwards host n (fopenWrite dstTmp) (fun fdDst t => fdDst ≠ none ∧
          Afterwards host n (bounded (copyLoop fdSrc fdDst)) (fun failure t => failure = none →
            WrittenWell host n fdSrc fdDst dstTmp dst uid gid mode t) t) t) s := by
    simp only [CopiesWell, htmp, Option.some.injEq, forall_eq']
  rw [hcond]
  have hopens : Opens host n (fopenRead src) s := opens_fopenRead src
  rcases hopens with ⟨t, hread⟩ | ⟨k, t, hread, -, hk, ht⟩
  · obtain ⟨e, hrun⟩ : ∃ e, fileCopy src dst uid gid mode host n s =
      ⟨[.deed (.copy dst) s], .raised e t⟩ := run_unread htmp hread
    rw [hrun, afterwards_of_ending (congrArg Run.ending hread)]
    exact iff_of_true closesOnce_unopened fun h => absurd rfl h
  rw [afterwards_of_ending (congrArg Run.ending hread),
    forall_prop_of_true (Option.some_ne_none k)]
  have hopens : Opens host n (fopenWrite dstTmp) t := opens_fopenWrite dstTmp
  rcases hopens with ⟨u, hwrite⟩ | ⟨k', u, hwrite, hlt, -, hu⟩
  · rw [run_unwritten htmp hread hwrite, afterwards_of_ending (congrArg Run.ending hwrite)]
    exact iff_of_false (fun h => h.valid rfl) fun h => h.1 rfl
  rw [afterwards_of_ending (congrArg Run.ending hwrite), run_copying htmp hread hwrite]
  have hne : k ≠ k' := by omega
  have hopen : ∀ j ∈ [k, k'], IsOpen u j := fun j hj => by
    rw [hu, ht]
    rcases List.mem_cons.mp hj with rfl | hj
    · exact .inr (.inl rfl)
    · exact .inl (List.mem_singleton.mp hj)
  rw [closesOnce_iff_valid hne rfl rfl (finishes_copying hne hopen dstTmp dst uid gid mode)]
  simp

/-- An empty file `a` in the root. -/
def oneFile : FileSys :=
  FileSys.bare.withFile nameA [] 420 (bare_node nameA)

/-- The copy to a directory that does not exist closes `NULL`. -/
theorem not_closesOnce_nowhere :
    let run := fileCopy ['a'] ['d', '/', 'b'] 0 0 420 Host.quiet 1 (Machine.initial oneFile [])
    openedOf run.log = [1] ∧ run.ending = .aborted ∧ ¬ ClosesOnce run := by
  have haborted : (fileCopy ['a'] ['d', '/', 'b'] 0 0 420 Host.quiet 1
      (Machine.initial oneFile [])).ending = .aborted := rfl
  exact ⟨by decide +kernel, haborted, fun hcloses => hcloses.valid haborted⟩

end LuaAdaLoad.Install.Streams
