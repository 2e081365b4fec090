import LuaAdaLoad.Install.Translation

/-!
# Rules for the calls

What the system calls, the streams and the pointers do, as rules for weakest preconditions. A call
may always fail on an unsound host; on a sound one it fails only where the file system refuses it.
-/

namespace LuaAdaLoad.Install.Calls

open LuaAdaLoad.Control.Actions LuaAdaLoad.Control.Weakest LuaAdaLoad.System.Paths
open LuaAdaLoad.System.FileSystem LuaAdaLoad.Install.Posix LuaAdaLoad.Install.Translation

/-- Files, working directory and suffixes are the same. -/
structure Kept (s s' : Machine) : Prop where
  fs : s'.fs = s.fs
  cwd : s'.cwd = s.cwd
  execSuffix : s'.execSuffix = s.execSuffix
  dlibSuffix : s'.dlibSuffix = s.dlibSuffix

theorem Kept.refl (s : Machine) : Kept s s := ⟨rfl, rfl, rfl, rfl⟩

theorem Kept.trans {s t u : Machine} (h : Kept s t) (h' : Kept t u) : Kept s u :=
  ⟨h'.fs.trans h.fs, h'.cwd.trans h.cwd, h'.execSuffix.trans h.execSuffix,
    h'.dlibSuffix.trans h.dlibSuffix⟩

/-- The static buffers are the same, too. -/
structure Idle (s s' : Machine) : Prop extends Kept s s' where
  statics : s'.statics = s.statics

theorem Idle.trans {s t u : Machine} (h : Idle s t) (h' : Idle t u) : Idle s u :=
  ⟨h.toKept.trans h'.toKept, h'.statics.trans h.statics⟩

theorem idle_afterCall (s : Machine) (e : Option Errno) : Idle s (s.afterCall e) :=
  ⟨⟨rfl, rfl, rfl, rfl⟩, rfl⟩

@[simp] theorem afterCall_fs (s : Machine) (e : Option Errno) : (s.afterCall e).fs = s.fs := rfl

@[simp] theorem afterCall_cwd (s : Machine) (e : Option Errno) : (s.afterCall e).cwd = s.cwd := rfl

@[simp] theorem afterCall_streams (s : Machine) (e : Option Errno) :
    (s.afterCall e).streams = s.streams := rfl

@[simp] theorem afterCall_statics (s : Machine) (e : Option Errno) :
    (s.afterCall e).statics = s.statics := rfl

variable {host : Host} {n : ℕ} {h : List Event} {s : Machine}

section Basic

variable {α : Type} {Q : Post Failure Machine Event α}

theorem wp_fail {status : Status} {message : String} :
    wp host n id (fail status message : Proc α) Q h s ↔
      Q.raised ⟨status, message.toList⟩ h s := wp_raise _

theorem wp_doing {d : Deed} {Q : Post Failure Machine Event Unit} :
    wp host n id (doing d) Q h s ↔ Q.done () (h ++ [.deed d s]) s := by
  simp [doing, wp_bind]

theorem wp_bounded {x : ℕ → Proc α} :
    wp host n id (bounded x) Q h s ↔ wp host n id (x n) Q h s := Iff.rfl

theorem wp_abort : wp host n id (abort : Proc α) Q h s ↔ Q.stopped h := by
  simp [wp, Post.Holds]

theorem wp_query {f : Machine → Except Errno α} {Q : Post Failure Machine Event (Option α)}
    (hfail : ∀ e, (host.Sound → ∀ a, f s ≠ .ok a) → Q.done none h (s.afterCall (some e)))
    (hok : ∀ a, f s = .ok a → Q.done (some a) h (s.afterCall none)) :
    wp host n id (query f) Q h s := by
  rw [query, wp_step]
  rcases hfault : host.fault s.calls with _ | e
  · rcases hf : f s with e | a
    · exact hfail e fun _ a => by simp [hf]
    · exact hok a hf
  · exact hfail e fun hsound => by simp [hsound.fault] at hfault

theorem wp_change {f : Host → Machine → Except Errno FileSys} {Q : Post Failure Machine Event Bool}
    (hfail : ∀ e, (host.Sound → ∀ fs, f host s ≠ .ok fs) → Q.done false h (s.afterCall (some e)))
    (hok : ∀ fs, f host s = .ok fs → Q.done true h { s.afterCall none with fs := fs }) :
    wp host n id (change f) Q h s := by
  rw [change, wp_step]
  rcases hfault : host.fault s.calls with _ | e
  · rcases hf : f host s with e | fs
    · exact hfail e fun _ fs => by simp [hf]
    · exact hok fs hf
  · exact hfail e fun hsound => by simp [hsound.fault] at hfault

theorem wp_chdir {path : CString} {Q : Post Failure Machine Event Bool}
    (hfail : ∀ e, (host.Sound → ∀ p, s.directory path ≠ .ok p) →
      Q.done false h (s.afterCall (some e)))
    (hok : ∀ p, s.directory path = .ok p → Q.done true h { s.afterCall none with cwd := p }) :
    wp host n id (chdir path) Q h s := by
  rw [chdir, wp_bind]
  refine wp_query (fun e he => ?_) fun p hp => ?_
  · exact (wp_pure _).mpr (hfail e he)
  · simp only [wp_bind, wp_modify, wp_pure]
    exact hok p hp

end Basic

/-! ### Pointers -/

section Pointers

variable {Q : Post Failure Machine Event CString}

theorem wp_load {p : Ptr} : wp host n id (load p) Q h s ↔ Q.done (p.read s.statics) h s := by
  simp [load, wp_bind]

theorem wp_deref_some {p : Ptr} :
    wp host n id (deref (some p)) Q h s ↔ Q.done (p.read s.statics) h s := wp_load

theorem wp_deref {p : Option Ptr} (hnone : p = none → Q.stopped h)
    (hsome : ∀ q, p = some q → Q.done (q.read s.statics) h s) :
    wp host n id (deref p) Q h s := by
  rcases p with _ | q
  · exact wp_abort.mpr (hnone rfl)
  · exact wp_load.mpr (hsome q rfl)

theorem snprintf_of_fit {text : CString} (h : text.length < maxPathLen) :
    snprintf maxPathLen text = some text := by
  have hint : text.length < 2 ^ 31 := h.trans (by decide)
  rw [snprintf, if_pos hint, List.take_of_length_le (by omega)]

/-- The machine with a static buffer filled. -/
def stored (s : Machine) (b : Static) (text : CString) : Machine :=
  { s with statics := Function.update s.statics b text }

theorem kept_stored (s : Machine) (b : Static) (text : CString) : Kept s (stored s b text) :=
  ⟨rfl, rfl, rfl, rfl⟩

@[simp] theorem stored_statics (s : Machine) (b : Static) (text : CString) :
    (stored s b text).statics b = text := Function.update_self _ _ _

@[simp] theorem stored_streams (s : Machine) (b : Static) (text : CString) :
    (stored s b text).streams = s.streams := rfl

theorem stored_statics_of_ne {b c : Static} (hc : c ≠ b) (text : CString) :
    (stored s b text).statics c = s.statics c := Function.update_of_ne hc _ _

theorem wp_store {b : Static} {text : CString} {Q : Post Failure Machine Event Unit} :
    wp host n id (store b text) Q h s ↔ Q.done () h (stored s b text) := wp_modify _

end Pointers

/-! ### Streams -/

section Streams

variable {α : Type} {Q : Post Failure Machine Event α}

theorem wp_withStream {k : ℕ} {f : Stream} {x : ℕ → Stream → Proc α}
    (hk : s.streams k = some f) :
    wp host n id (withStream (some k) x) Q h s ↔ wp host n id (x k f) Q h s := by
  simp [withStream, wp_bind, hk]

theorem wp_setStream {k : ℕ} {f : Option Stream} {Q : Post Failure Machine Event Unit} :
    wp host n id (setStream k f) Q h s ↔
      Q.done () h { s with streams := Function.update s.streams k f } := wp_modify _

theorem wp_feof {k : ℕ} {f : Stream} {Q : Post Failure Machine Event Bool}
    (hk : s.streams k = some f) : wp host n id (feof (some k)) Q h s ↔ Q.done f.eof h s := by
  rw [feof, wp_withStream hk, wp_pure]

theorem wp_ferror {k : ℕ} {f : Stream} {Q : Post Failure Machine Event Bool}
    (hk : s.streams k = some f) : wp host n id (ferror (some k)) Q h s ↔ Q.done f.err h s := by
  rw [ferror, wp_withStream hk, wp_pure]

/-- The machine with a new stream on a file. -/
def opening (s : Machine) (p : Place) : Machine :=
  { s with streams := Function.update s.streams s.calls (some ⟨p, 0, false, false⟩) }

theorem wp_openStream {p : Place} {Q : Post Failure Machine Event ℕ} :
    wp host n id (openStream p) Q h s ↔
      Q.done s.calls (h ++ [.opened s.calls]) (opening s p) := by
  simp [openStream, wp_bind, opening]

theorem wp_fopenRead {path : CString} {Q : Post Failure Machine Event (Option ℕ)}
    (hfail : ∀ e, (host.Sound → s.fs.follow s.cwd path = none) →
      Q.done none h (s.afterCall (some e)))
    (hok : ∀ p, s.fs.follow s.cwd path = some p → ∀ k t, Idle s t →
      t.streams k = some ⟨p, 0, false, false⟩ → Q.done (some k) (h ++ [.opened k]) t) :
    wp host n id (fopenRead path) Q h s := by
  rw [fopenRead, wp_bind]
  refine wp_query (fun e he => ?_) fun p hp => ?_
  · simp only [wp_pure]
    refine hfail e fun hsound => ?_
    rcases hf : s.fs.follow s.cwd path with _ | p
    · rfl
    · exact absurd (by simp [Machine.file, hf]) (he hsound p)
  · have hf : s.fs.follow s.cwd path = some p := by
      rcases hf : s.fs.follow s.cwd path with _ | q <;> simp [Machine.file, hf] at hp
      rw [hp]
    simp only [wp_bind, wp_openStream, wp_pure]
    exact hok p hf _ _ ⟨⟨rfl, rfl, rfl, rfl⟩, rfl⟩ (by simp [opening])

/-- The contents of the file that a path name leads to. -/
def fileContent (fs : FileSys) (cwd : Place) (path : CString) : Option CString :=
  (fs.follow cwd path).bind fun p => contentOf (fs.node p)

/-- `fread` at the start of a file, where it moves all it can. -/
theorem wp_fread_start {size k : ℕ} {p : Place} {Q : Post Failure Machine Event CString}
    (hwhole : ∀ k, host.chunk k = none) (hk : s.streams k = some ⟨p, 0, false, false⟩)
    (hok : ∀ content, contentOf (s.fs.node p) = some content → ∀ f t, Idle s t →
      t.streams k = some f → f.err = false → Q.done (content.take size) h t)
    (herr : (host.Sound → contentOf (s.fs.node p) = none) → ∀ f t, Idle s t →
      t.streams k = some f → f.err = true → Q.done [] h t) :
    wp host n id (fread size (some k)) Q h s := by
  rw [fread, wp_withStream hk, wp_step]
  unfold Machine.readFrom
  rcases hfault : host.fault s.calls with _ | e
  · rcases hc : contentOf (s.fs.node p) with _ | content
    · exact herr (fun _ => hc) _ _ ⟨⟨rfl, rfl, rfl, rfl⟩, rfl⟩ (Function.update_self _ _ _) rfl
    · have hshare : host.share s.calls (min size content.length) = min size content.length := by
        simp [Host.share, hwhole]
      have htake : content.take (min size content.length) = content.take size := by
        rw [← List.take_take, List.take_length]
      simp only [List.drop_zero, hshare, htake]
      exact hok content hc _ _ ⟨⟨rfl, rfl, rfl, rfl⟩, rfl⟩ (Function.update_self _ _ _) rfl
  · have hno : host.Sound → contentOf (s.fs.node p) = none := fun hsound => by
      simp [hsound.fault] at hfault
    exact herr hno _ _ ⟨⟨rfl, rfl, rfl, rfl⟩, rfl⟩ (Function.update_self _ _ _) rfl

theorem wp_fclose {k : ℕ} {f : Stream} {Q : Post Failure Machine Event Bool}
    (hk : s.streams k = some f)
    (hdone : ∀ b t, Idle s t → (host.Sound → b = true) → Q.done b (h ++ [.closed k]) t) :
    wp host n id (fclose (some k)) Q h s := by
  rw [fclose, wp_withStream hk]
  simp only [wp_bind, wp_note, wp_setStream, id]
  refine wp_query (fun e he => ?_) fun a _ => ?_
  · simp only [wp_pure]
    exact hdone _ _ ⟨⟨rfl, rfl, rfl, rfl⟩, rfl⟩ fun hsound => absurd rfl (he hsound ())
  · simp only [wp_pure]
    exact hdone _ _ ⟨⟨rfl, rfl, rfl, rfl⟩, rfl⟩ fun _ => rfl

end Streams

end LuaAdaLoad.Install.Calls
