import LuaAdaLoad.Install.Streams
import LuaAdaLoad.System.Removals
import LuaAdaLoad.Text.Dotted

/-!
# Copies are all or nothing

`install_file_copy` writes to a temporary file next to the destination and renames it at the end. If
nothing stands in the place of the temporary file but perhaps a regular file, then until the rename
the file systems differ at this place only (`Holding`), and the loops write just what they read
(`wp_writeOut`, `wp_copyLoop`). So the destination becomes a copy of the source, or stays what it was
(`all_or_nothing`). A link in that place can lead to the destination itself.
-/

namespace LuaAdaLoad.Install.FileCopies

open LuaAdaLoad.Control.Actions LuaAdaLoad.Control.Weakest LuaAdaLoad.Control.Frames
open LuaAdaLoad.System.Paths LuaAdaLoad.System.FileSystem LuaAdaLoad.System.Walks
open LuaAdaLoad.System.Removals
open LuaAdaLoad.Install.Posix LuaAdaLoad.Install.Translation LuaAdaLoad.Install.Operators
open LuaAdaLoad.Install.Calls LuaAdaLoad.Install.Streams
open LuaAdaLoad.Text.Dotted (exists_last_sep)

/-! ### The name of the temporary file -/

/-- `dst_tmp`. -/
def temporary (dst : CString) : CString := dst ++ ".tmp".toList

/-- The text behind the last slash of a path name, and the components in front of it. -/
theorem exists_chunk (path : CString) : ∃ ds chunk, '/' ∉ chunk ∧
    (chunk = [] → path = [] ∨ Slashed path) ∧
    ∀ text, '/' ∉ text → components (path ++ text) = ds ++ components (chunk ++ text) := by
  by_cases hmem : '/' ∈ path
  · obtain ⟨dir, chunk, rfl, hchunk⟩ := exists_last_sep hmem
    refine ⟨components dir, chunk, hchunk, ?_, fun text htext => ?_⟩
    · rintro rfl
      exact .inr (by simp [Slashed])
    · rw [List.append_assoc, List.cons_append]
      exact components_joined dir (chunk ++ text)
  · exact ⟨[], path, hmem, .inl, fun text _ => rfl⟩

/-- The temporary file has another name than the destination, in the same directory. -/
theorem components_temporary (dst : CString) : ∃ ds m, components (temporary dst) = ds ++ [.name m] ∧
    ∀ ds' n, ¬ Slashed dst → components dst = ds' ++ [.name n] → ds' = ds ∧ n ≠ m := by
  obtain ⟨ds, chunk, hchunk, hnil, hcs⟩ := exists_chunk dst
  have hslash : '/' ∉ chunk ++ ".tmp".toList := by simp [hchunk]
  have hname : ∃ m : Name, m.chars = chunk ++ ".tmp".toList :=
    ⟨⟨chunk ++ ".tmp".toList, by simp, hslash, fun h => by simpa using congrArg List.length h,
      fun h => by simpa using congrArg List.length h⟩, rfl⟩
  obtain ⟨m, hm⟩ := hname
  refine ⟨ds, m, ?_, fun ds' n hdst hn => ?_⟩
  · rw [temporary, hcs _ (by decide), ← hm, components_name]
  · have hcs := hcs [] (by simp)
    rw [List.append_nil, List.append_nil, hn, components_chunk hchunk] at hcs
    rcases hc : component chunk with _ | c
    · rcases hnil (component_eq_none hchunk hc) with rfl | hslashed
      · simp at hn
      · exact absurd hslashed hdst
    · rw [hc, Option.toList_some] at hcs
      obtain ⟨rfl, hcn⟩ := List.append_inj' hcs rfl
      refine ⟨rfl, ?_⟩
      rintro rfl
      obtain rfl : c = .name n := by simpa [eq_comm] using hcn
      have hchars := component_eq_name hc
      rw [hm] at hchars
      exact absurd (congrArg List.length hchars) (by simp)

/-- The entry of the temporary file. -/
theorem entry_temporary {fs : FileSys} {cwd q : Place} {dst : CString}
    (hq : FileSys.entry fs cwd (temporary dst) = some q) (hdst : ¬ Slashed dst) :
    FileSys.entry fs cwd dst ≠ some q := fun hd => by
  obtain ⟨ds, m, hcs, hother⟩ := components_temporary dst
  obtain ⟨ds₁, m₁, dir₁, hcs₁, hw₁, -, rfl⟩ := entry_iff.mp hq
  obtain ⟨ds₂, n, dir₂, hcs₂, hw₂, -, hplace⟩ := entry_iff.mp hd
  obtain ⟨rfl, hne⟩ := hother ds₂ n hdst hcs₂
  obtain ⟨rfl, hm⟩ := List.append_inj' (hcs.symm.trans hcs₁) rfl
  obtain rfl : m = m₁ := by simpa using hm
  exact hne (List.cons.inj hplace).1.symm

theorem slashed_temporary (dst : CString) : ¬ Slashed (temporary dst) := by
  simp [Slashed, temporary]

/-! ### What the calls do to the temporary file -/

/-- The files are those of the first state, but that a file stands at one place. -/
structure Holding (s t : Machine) (q : Place) (x : Node) : Prop where
  cwd : t.cwd = s.cwd
  node : ∀ p, p ≠ q → t.fs.node p = s.fs.node p
  here : t.fs.node q = some x

/-- A regular file. -/
def file (content : CString) (mode uid gid : ℕ) : Node := ⟨.regular content, mode, uid, gid⟩

variable {s t : Machine} {q : Place} {content tmp : CString} {mode uid gid : ℕ}

theorem Holding.elsewhere (h : Holding s t q (file content mode uid gid))
    (hflat : Flat (s.fs.node q)) : Elsewhere q s.fs t.fs where
  node := h.node
  flat := hflat
  flat' x hx := by
    obtain rfl := Option.some.inj (h.here.symm.trans hx)
    exact ⟨content, rfl⟩

/-- The path name of the temporary file leads to it. -/
theorem Holding.follow (h : Holding s t q (file content mode uid gid)) (hflat : Flat (s.fs.node q))
    (hq : FileSys.entry s.fs s.cwd tmp = some q) (hslash : ¬ Slashed tmp) :
    t.fs.follow t.cwd tmp = some q := by
  rw [← entry_elsewhere (h.elsewhere hflat), ← h.cwd] at hq
  obtain ⟨ds, n, dir, hcs, hw, hdir, rfl⟩ := entry_iff.mp hq
  have hnil : tmp ≠ [] := by
    rintro rfl
    simp at hcs
  have hlast : t.fs.walk false 0 dir [.name n] = some (n :: dir) := by
    rw [walk_entry hdir h.here (by simp [file]), walk_nil]
  unfold FileSys.follow
  rw [if_neg hnil, hcs, Option.filter_eq_some_iff]
  exact ⟨walk_append hw hlast, decide_eq_true (.inl hslash)⟩

section Calls

variable {host : Host} {n : ℕ} {h : List Event} {α : Type}

/-- `fclose` changes no file; a bad stream ends the run. -/
theorem wp_fclose_any {stream : Option ℕ} {Q : Post Failure Machine Event Bool}
    (hdone : ∀ b h' u, Idle t u → Q.done b h' u) (hstop : ∀ h', Q.stopped h') :
    wp host n id (fclose stream) Q h t := by
  rcases stream with _ | k
  · exact hstop _
  rcases hk : t.streams k with _ | f
  · have habort : fclose (some k) host n t = ⟨[], .aborted⟩ := by simp [fclose, withStream, hk]
    exact (wp_of_run habort).mpr (hstop _)
  · exact wp_fclose hk fun b u hu _ => hdone _ _ _ hu

theorem wp_fflush_any {stream : Option ℕ} {Q : Post Failure Machine Event Bool}
    (hdone : ∀ b h' u, Idle t u → Q.done b h' u) (hstop : ∀ h', Q.stopped h') :
    wp host n id (fflush stream) Q h t := by
  rcases stream with _ | k
  · exact hstop _
  rcases hk : t.streams k with _ | f
  · have habort : fflush (some k) host n t = ⟨[], .aborted⟩ := by simp [fflush, withStream, hk]
    exact (wp_of_run habort).mpr (hstop _)
  · rw [fflush, wp_withStream hk, wp_bind]
    refine wp_query (fun e _ => ?_) fun _ _ => ?_
    · exact (wp_pure _).mpr (hdone _ _ _ (idle_afterCall t _))
    · exact (wp_pure _).mpr (hdone _ _ _ (idle_afterCall t _))

theorem Holding.idle {u : Machine} {x : Node} (h : Holding s t q x) (hu : Idle t u) :
    Holding s u q x := ⟨hu.cwd.trans h.cwd, fun p hp => by rw [hu.fs, h.node p hp], by rw [hu.fs, h.here]⟩

/-- The temporary file is changed. -/
theorem Holding.adjust {fs : FileSys} {x : Node} {f : Node → Node}
    {hf : ∀ x, (f x).kind = .directory ↔ x.kind = .directory} (h : Holding s t q x)
    (hfs : fs = t.fs.adjust q f hf) : Holding s { t.afterCall none with fs := fs } q (f x) where
  cwd := h.cwd
  node p hp := by
    subst hfs
    simp only [node_adjust, if_neg hp]
    exact h.node p hp
  here := by
    subst hfs
    simp only [node_adjust, if_true, h.here, Option.map_some]

theorem wp_chmod (h' : Holding s t q (file content mode uid gid)) (hflat : Flat (s.fs.node q))
    (hq : FileSys.entry s.fs s.cwd tmp = some q) (hslash : ¬ Slashed tmp) (perm : ℕ) :
    wp host n id (chmod tmp perm) ⟨fun ok _ u =>
      (ok = false → Holding s u q (file content mode uid gid)) ∧
      (ok = true → Holding s u q (file content perm uid gid)),
      fun _ _ _ => False, fun _ => False⟩ h t := by
  refine wp_change (fun e _ => ⟨fun _ => h'.idle (idle_afterCall t _), by simp⟩)
    fun fs hfs => ⟨by simp, fun _ => ?_⟩
  rw [FileSys.chmod, h'.follow hflat hq hslash] at hfs
  exact h'.adjust (Except.ok.inj hfs).symm

theorem wp_chown (h' : Holding s t q (file content mode uid gid)) (hflat : Flat (s.fs.node q))
    (hq : FileSys.entry s.fs s.cwd tmp = some q) (hslash : ¬ Slashed tmp) (user group : ℕ) :
    wp host n id (chown tmp user group) ⟨fun ok _ u =>
      (ok = false → Holding s u q (file content mode uid gid)) ∧
      (ok = true → Holding s u q (file content (ownedMode (file content mode uid gid)) user group)),
      fun _ _ _ => False, fun _ => False⟩ h t := by
  refine wp_change (fun e _ => ⟨fun _ => h'.idle (idle_afterCall t _), by simp⟩)
    fun fs hfs => ⟨by simp, fun _ => ?_⟩
  rw [FileSys.chown, h'.follow hflat hq hslash] at hfs
  exact h'.adjust (Except.ok.inj hfs).symm

end Calls

/-! ### The end of a copy -/

theorem rename_ok {fs fs' : FileSys} {cwd : Place} {old new : CString} {x : Node}
    (hq : FileSys.entry fs cwd old = some q) (hx : fs.node q = some x)
    (h : fs.rename cwd old new = .ok fs') : ¬ Slashed new ∧
    ∃ p, FileSys.entry fs cwd new = some p ∧ fs'.node p = some x ∧
      (∀ r, r ≠ p → r ≠ q → fs'.node r = fs.node r) ∧ (q ≠ p → fs'.node q = none) := by
  obtain ⟨e, he, rfl⟩ := entry_eq_some.mp hq
  unfold FileSys.rename at h
  split_ifs at h with hslash
  rcases hd : fs.locate cwd new with _ | d
  · simp [he, hd] at h
  refine ⟨fun hnew => hslash (.inr hnew), d.place, entry_eq_some.mpr ⟨d, hd, rfl⟩, ?_⟩
  simp only [he, hd, hx] at h
  split_ifs at h with hdir hdir' hsame
  · obtain rfl := Except.ok.inj h
    exact ⟨by rw [hsame, hx], fun _ _ _ => rfl, fun hne => absurd hsame.symm hne⟩
  · obtain rfl := Except.ok.inj h
    refine ⟨?_, fun r hr hrq => ?_, fun hne => ?_⟩
    · rw [node_put]
      exact if_pos rfl
    · rw [node_put, if_neg (show r ≠ d.name :: d.dir from hr), node_remove,
        if_neg (show r ≠ e.name :: e.dir from hrq)]
    · rw [node_put, if_neg (show e.place ≠ d.name :: d.dir from hne), node_remove]
      exact if_pos rfl

section End

variable {host : Host} {n : ℕ} {h : List Event}

/-- The last call was made to fail. -/
def LastFailed (host : Host) (t : Machine) : Prop := host.fault (t.calls - 1) ≠ none

/-- After an error, the temporary file is gone and everything else is as before. -/
structure Undone (s t : Machine) (q : Place) : Prop where
  cwd : t.cwd = s.cwd
  node : ∀ p, p ≠ q → t.fs.node p = s.fs.node p
  gone : t.fs.node q = none

/-- The entry of the destination is a copy of the source, with a mode that fits. -/
def Copied (s t : Machine) (src dst : CString) (uid gid : ℕ) (fits : ℕ → Prop) : Prop :=
  ∃ content p got, fileContent s.fs s.cwd src = some content ∧
    FileSys.entry s.fs s.cwd dst = some p ∧ fits got ∧ t.fs.node p = some (file content got uid gid)

/-- The temporary file has become the destination, and everything else is as before. -/
structure Renamed (s t : Machine) (q p : Place) : Prop where
  flat : Flat (t.fs.node p)
  there : t.fs.node p ≠ none
  node : ∀ r, r ≠ p → r ≠ q → t.fs.node r = s.fs.node r
  gone : q ≠ p → t.fs.node q = none

/-- The modes differ in the set-ID bits at most, and not at all if none is requested. -/
def SameBits (mode got : ℕ) : Prop :=
  got ||| setIdBits = mode ||| setIdBits ∧ (mode &&& setIdBits = 0 → got = mode)

theorem wp_copyFailed (h' : Holding s t q (file content mode uid gid)) (hflat : Flat (s.fs.node q))
    (hq : FileSys.entry s.fs s.cwd tmp = some q) (hslash : ¬ Slashed tmp)
    (fdSrc fdDst : Option ℕ) (message : String) :
    wp host n id (copyFailed fdSrc fdDst tmp message)
      ⟨fun _ _ _ => False, fun _ _ u => LastFailed host u ∨ Undone s u q, fun _ => True⟩ h t := by
  simp only [copyFailed, wp_bind]
  refine wp_fclose_any (fun _ h₁ u hu => ?_) fun _ => trivial
  refine wp_fclose_any (fun _ h₂ v hv => ?_) fun _ => trivial
  have hheld := (h'.idle hu).idle hv
  have hentry : FileSys.entry v.fs v.cwd tmp = some q := by
    rw [hheld.cwd, entry_elsewhere (hheld.elsewhere hflat), hq]
  dsimp only
  rw [unlink, change, wp_step]
  simp only [wp_fail]
  rcases hfault : host.fault v.calls with _ | e
  · obtain ⟨fs, hfs⟩ := unlink_file hentry hslash hheld.here
      (hheld.elsewhere hflat).flat'.not_isDir
    obtain ⟨hother, hgone⟩ := unlink_ok hentry hfs
    simp only [hfs]
    exact .inr ⟨hheld.cwd, fun p hp => (hother p hp).trans (hheld.node p hp), hgone⟩
  · left
    have hlast : host.fault (v.calls + 1 - 1) = some e := hfault
    exact fun hnone => Option.some_ne_none e (hlast.symm.trans hnone)

/-- The mode that the temporary file has in the end. -/
theorem sameBits_owned (content : CString) (mode uid gid : ℕ) :
    SameBits mode (ownedMode (file content mode uid gid)) := by
  refine ⟨Nat.eq_of_testBit_eq fun i => ?_, fun hclear => Nat.eq_of_testBit_eq fun i => ?_⟩
  · rw [Nat.testBit_or, Nat.testBit_or, testBit_ownedMode]
    cases hi : (droppedBits (file content mode uid gid)).testBit i with
    | false => simp [file]
    | true => rw [setIdBits_of_dropped hi, Bool.or_true, Bool.or_true]
  · have hbit : (mode.testBit i && setIdBits.testBit i) = false := by
      rw [← Nat.testBit_and, hclear, Nat.zero_testBit]
    rw [testBit_ownedMode]
    cases hi : (droppedBits (file content mode uid gid)).testBit i with
    | false => simp [file]
    | true =>
      rw [setIdBits_of_dropped hi, Bool.and_true] at hbit
      simp [file, hbit]

/-- How a copy through a temporary file ends, once this file is open. -/
def endPost (host : Host) (s : Machine) (q : Place) (src dst : CString) (uid gid mode : ℕ) :
    Post Failure Machine Event Unit where
  done _ _ t := Copied s t src dst uid gid (SameBits mode) ∧ ¬ Slashed dst ∧
    ∃ p, FileSys.entry s.fs s.cwd dst = some p ∧ Renamed s t q p
  raised _ _ t := LastFailed host t ∨ Undone s t q
  stopped _ := True

theorem wp_copyWritten {src dst : CString} {mode' uid' gid' : ℕ}
    (h' : Holding s t q (file content mode' uid' gid')) (hflat : Flat (s.fs.node q))
    (hq : FileSys.entry s.fs s.cwd tmp = some q) (hslash : ¬ Slashed tmp)
    (hsrc : fileContent s.fs s.cwd src = some content) (fdSrc fdDst : Option ℕ) :
    wp host n id (copyWritten fdSrc fdDst tmp dst uid gid mode)
      (endPost host s q src dst uid gid mode) h t := by
  simp only [copyWritten, wp_bind]
  have hfail : ∀ {m u g : ℕ} {v : Machine} {h : List Event} {message : String},
      Holding s v q (file content m u g) → wp host n id (copyFailed fdSrc fdDst tmp message)
        (endPost host s q src dst uid gid mode) h v := fun hv =>
    wp_mono (wp_copyFailed hv hflat hq hslash fdSrc fdDst _) (fun _ _ _ hf => absurd hf id)
      (fun _ _ _ => id) fun _ => id
  refine wp_fflush_any (fun flushed h₁ u₁ hu => ?_) fun _ => trivial
  have hheld := h'.idle hu
  cases flushed with
  | false => simpa using hfail hheld
  | true =>
  simp only [Bool.not_true, Bool.false_eq_true, if_false, wp_bind]
  refine wp_mono (wp_chmod hheld hflat hq hslash mode) ?_ (fun _ _ _ hf => absurd hf id)
    fun _ hf => absurd hf id
  rintro moded h₂ u₂ ⟨hfailed, hheld⟩
  cases moded with
  | false => simpa using hfail (hfailed rfl)
  | true =>
  simp only [Bool.not_true, Bool.false_eq_true, if_false, wp_bind]
  refine wp_mono (wp_chown (hheld rfl) hflat hq hslash uid gid) ?_ (fun _ _ _ hf => absurd hf id)
    fun _ hf => absurd hf id
  rintro owned h₃ u₃ ⟨hfailed, hheld⟩
  cases owned with
  | false => simpa using hfail (hfailed rfl)
  | true =>
  simp only [Bool.not_true, Bool.false_eq_true, if_false, wp_bind]
  refine wp_fclose_any (fun closed h₄ u₄ hu => ?_) fun _ => trivial
  have hheld := (hheld rfl).idle hu
  cases closed with
  | false => simpa using hfail hheld
  | true =>
  simp only [Bool.not_true, Bool.false_eq_true, if_false, wp_bind]
  refine wp_fclose_any (fun closed h₅ u₅ hu => ?_) fun _ => trivial
  have hheld := hheld.idle hu
  cases closed with
  | false => simpa using hfail hheld
  | true =>
  simp only [Bool.not_true, Bool.false_eq_true, if_false, wp_bind]
  change wp host n id (change _) _ h₅ u₅
  refine wp_change (fun e _ => ?_) fun fs hfs => ?_
  · simpa using hfail (hheld.idle (idle_afterCall u₅ _))
  · simp only [Bool.not_true, Bool.false_eq_true, if_false, wp_pure]
    have hentry : ∀ path, FileSys.entry u₅.fs u₅.cwd path = FileSys.entry s.fs s.cwd path :=
      fun path => by rw [hheld.cwd, entry_elsewhere (hheld.elsewhere hflat)]
    obtain ⟨hslash, p, hp, hx, hother, hgone⟩ := rename_ok ((hentry tmp).trans hq) hheld.here hfs
    have hp : FileSys.entry s.fs s.cwd dst = some p := (hentry dst).symm.trans hp
    refine ⟨⟨content, p, _, hsrc, hp, sameBits_owned _ _ _ _, hx⟩, hslash, p, hp, ?_, ?_,
      fun r hr hrq => ?_, hgone⟩
    · intro y hy
      obtain rfl := Option.some.inj (hx.symm.trans hy)
      exact ⟨content, rfl⟩
    · exact hx ▸ Option.some_ne_none _
    · exact (hother r hr hrq).trans (hheld.node r hrq)

end End

/-! ### The loops -/

/-- So much of the source was read, and so much was written to the temporary file. -/
structure Copying (s t : Machine) (q r : Place) (k k' pos : ℕ) (eof : Bool) (written : CString) :
    Prop where
  holding : ∃ mode uid gid, Holding s t q (file written mode uid gid)
  inp : ∃ err, t.streams k = some ⟨r, pos, eof, err⟩
  out : ∃ err, t.streams k' = some ⟨q, written.length, false, err⟩

section Loops

variable {host : Host} {n : ℕ} {h : List Event} {r : Place} {k k' pos : ℕ} {eof : Bool}
variable {written : CString}

theorem overwritten_end (old bytes : CString) : overwritten old old.length bytes = old ++ bytes := by
  simp [overwritten]

theorem share_le (host : Host) (call available : ℕ) : host.share call available ≤ available := by
  unfold Host.share
  split
  · exact le_rfl
  · exact min_le_right _ _

theorem wp_fwrite_end (hcopy : Copying s t q r k k' pos eof written) (hne : k ≠ k')
    (bytes : CString) : wp host n id (fwrite bytes (some k'))
      ⟨fun w _ u => Copying s u q r k k' pos eof (written ++ bytes.take w) ∧
        (w = 0 → bytes = [] ∨ ∃ f, u.streams k' = some f ∧ f.eof = false ∧ f.err = true),
        fun _ _ _ => False, fun _ => False⟩ h t := by
  obtain ⟨⟨mode, uid, gid, hheld⟩, ⟨err, hin⟩, err', hout⟩ := hcopy
  rw [fwrite, wp_withStream hout, wp_step]
  unfold Machine.writeTo
  rcases hfault : host.fault t.calls with _ | e
  · have hcontent : contentOf (t.fs.node q) = some written := by rw [hheld.here]; rfl
    have hle := share_le host t.calls bytes.length
    simp only [hcontent, Option.getD_some, overwritten_end]
    refine ⟨⟨⟨mode, uid, gid, hheld.cwd, fun p hp => ?_, ?_⟩, ⟨err, ?_⟩, err', ?_⟩, fun hzero => ?_⟩
    · rw [node_adjust, if_neg hp, hheld.node p hp]
    · rw [node_adjust, if_pos rfl, hheld.here]
      rfl
    · exact (Function.update_of_ne hne _ _).trans hin
    · refine (Function.update_self _ _ _).trans ?_
      rw [List.length_append, List.length_take, Nat.min_eq_left hle]
    · left
      unfold Host.share at hzero
      rcases hc : host.chunk t.calls with _ | c
      · simpa [hc] using hzero
      · simp only [hc] at hzero
        have : bytes.length = 0 := by omega
        exact List.length_eq_zero_iff.mp this
  · simp only [List.take_zero, List.append_nil]
    refine ⟨⟨⟨mode, uid, gid, hheld.cwd, hheld.node, hheld.here⟩, ⟨err, ?_⟩, true, ?_⟩,
      fun _ => .inr ?_⟩
    · exact (Function.update_of_ne hne _ _).trans hin
    · exact Function.update_self _ _ _
    · exact ⟨_, Function.update_self _ _ _, rfl, rfl⟩

/-- **The inner loop** writes the whole buffer behind what was written, or fails. -/
theorem wp_writeOut (hne : k ≠ k') (i : ℕ) : ∀ {h t buf written},
    Copying s t q r k k' pos eof written → wp host n id (writeOut (some k') i buf)
      ⟨fun ok _ u => ∃ written', Copying s u q r k k' pos eof written' ∧
        (ok = true → written' = written ++ buf), fun _ _ _ => False, fun _ => True⟩ h t := by
  induction i with
  | zero => exact fun _ => trivial
  | succ i ih =>
    intro h t buf written hcopy
    rw [writeOut]
    by_cases hbuf : buf = []
    · rw [if_pos hbuf, wp_pure]
      exact ⟨written, hcopy, fun _ => by simp [hbuf]⟩
    rw [if_neg hbuf, wp_bind]
    refine wp_mono (wp_fwrite_end hcopy hne buf) ?_ (fun _ _ _ hf => absurd hf id)
      fun _ hf => absurd hf id
    rintro w h₁ u ⟨hcopy, hzero⟩
    dsimp only
    by_cases hw : w = 0
    · rw [if_pos hw, wp_bind]
      obtain ⟨f, hf, heof, herr⟩ := (hzero hw).resolve_left hbuf
      rw [wp_feof hf, heof]
      simp only [Bool.false_eq_true, if_false, wp_bind]
      rw [wp_ferror hf, herr]
      simp only [if_true, wp_pure]
      exact ⟨_, hcopy, by simp⟩
    · rw [if_neg hw]
      refine wp_mono (ih hcopy) ?_ (fun _ _ _ => id) fun _ => id
      rintro ok h₂ v ⟨written', hcopy, hall⟩
      refine ⟨written', hcopy, fun hok => ?_⟩
      rw [hall hok, List.append_assoc, List.take_append_drop]

/-- What the position of the source stream says. -/
structure Reading (source : Option CString) (pos : ℕ) (eof : Bool) (written : CString) : Prop where
  part : ∀ content, source = some content → written = content.take pos
  whole : eof = true → ∃ content, source = some content ∧ content.length ≤ pos

theorem wp_fread_next (hcopy : Copying s t q r k k' pos eof written) (hne : k ≠ k') (hr : r ≠ q)
    (hread : Reading (contentOf (s.fs.node r)) pos eof written) (size : ℕ) :
    wp host n id (fread size (some k)) ⟨fun buf _ u => ∃ eof',
      Copying s u q r k k' (pos + buf.length) eof' written ∧
      Reading (contentOf (s.fs.node r)) (pos + buf.length) eof' (written ++ buf),
      fun _ _ _ => False, fun _ => False⟩ h t := by
  obtain ⟨⟨mode, uid, gid, hheld⟩, ⟨err, hin⟩, err', hout⟩ := hcopy
  have hother : ∀ f : Option Stream, Function.update t.streams k f k' = t.streams k' := fun f =>
    Function.update_of_ne (Ne.symm hne) _ _
  -- nothing is read
  have hnothing : ∀ u : Machine, u.cwd = t.cwd → u.fs = t.fs →
      u.streams = Function.update t.streams k (some ⟨r, pos, eof, true⟩) →
      ∃ eof', Copying s u q r k k' (pos + ([] : CString).length) eof' written ∧
        Reading (contentOf (s.fs.node r)) (pos + ([] : CString).length) eof' (written ++ []) := by
    intro u hcwd hfs hstreams
    rw [List.append_nil, List.length_nil, Nat.add_zero]
    refine ⟨eof, ⟨⟨mode, uid, gid, hcwd.trans hheld.cwd, ?_, ?_⟩, ⟨true, ?_⟩, err', ?_⟩, hread⟩
    · rw [hfs]
      exact hheld.node
    · rw [hfs]
      exact hheld.here
    · rw [hstreams]
      exact Function.update_self _ _ _
    · rw [hstreams, hother, hout]
  rw [fread, wp_withStream hin, wp_step]
  unfold Machine.readFrom
  rcases hfault : host.fault t.calls with _ | e
  · rcases hcontent : contentOf (t.fs.node r) with _ | content
    · exact hnothing _ rfl rfl rfl
    · have hsource : contentOf (s.fs.node r) = some content := by rw [← hheld.node r hr, hcontent]
      have hcount := share_le host t.calls (min size (content.drop pos).length)
      dsimp only
      generalize host.share t.calls (min size (content.drop pos).length) = count at hcount
      have hlen : ((content.drop pos).take count).length = count := by
        rw [List.length_take]
        omega
      rw [hlen, hsource]
      refine ⟨eof || decide (count = (content.drop pos).length ∧ (content.drop pos).length < size),
        ⟨⟨mode, uid, gid, hheld.cwd, hheld.node, hheld.here⟩, ⟨err, ?_⟩, err', ?_⟩, ?_, ?_⟩
      · exact Function.update_self _ _ _
      · exact (hother _).trans hout
      · rintro _ ⟨⟩
        rw [hread.part content hsource, List.take_add]
      · intro heof
        refine ⟨content, rfl, ?_⟩
        rcases Bool.or_eq_true_iff.mp heof with heof | hend
        · obtain ⟨_, hsome, hle⟩ := hread.whole heof
          obtain rfl := Option.some.inj (hsource.symm.trans hsome)
          omega
        · obtain ⟨hall, -⟩ := of_decide_eq_true hend
          rw [List.length_drop] at hall
          omega
  · exact hnothing _ rfl rfl rfl

/-- **The outer loop** copies the source, if there is no error. -/
theorem wp_copyLoop (hne : k ≠ k') (hr : r ≠ q) (i : ℕ) : ∀ {h t pos eof written},
    Copying s t q r k k' pos eof written → Reading (contentOf (s.fs.node r)) pos eof written →
    wp host n id (copyLoop (some k) (some k') i)
      ⟨fun failure _ u => ∃ content mode uid gid, Holding s u q (file content mode uid gid) ∧
        (failure = none → contentOf (s.fs.node r) = some content),
        fun _ _ _ => False, fun _ => True⟩ h t := by
  induction i with
  | zero => exact fun _ _ => trivial
  | succ i ih =>
    intro h t pos eof written hcopy hread
    rw [copyLoop, wp_bind]
    refine wp_mono (wp_fread_next hcopy hne hr hread 65536) ?_ (fun _ _ _ hf => absurd hf id)
      fun _ hf => absurd hf id
    rintro buf h₁ u ⟨eof', hcopy, hread⟩
    obtain ⟨mode, uid, gid, hheld⟩ := hcopy.holding
    obtain ⟨err, hin⟩ := hcopy.inp
    simp only [wp_bind]
    rw [wp_feof hin]
    dsimp only
    by_cases hend : buf = [] ∧ eof' = true
    · rw [if_pos hend, wp_pure]
      obtain ⟨content, hsource, hle⟩ := hread.whole hend.2
      refine ⟨written, mode, uid, gid, hheld, fun _ => ?_⟩
      have hpart := hread.part content hsource
      rw [hend.1, List.append_nil] at hpart
      rw [hsource, hpart, List.take_of_length_le (by simpa [hend.1] using hle)]
    rw [if_neg hend]
    simp only [wp_bind]
    rw [wp_ferror hin]
    dsimp only
    split_ifs
    · rw [wp_pure]
      exact ⟨written, mode, uid, gid, hheld, by simp⟩
    · rw [wp_bind, wp_bounded]
      refine wp_mono (wp_writeOut hne n hcopy) ?_ (fun _ _ _ => id) fun _ => id
      rintro ok h₂ v ⟨written', hcopy, hall⟩
      cases ok with
      | true =>
        obtain rfl := hall rfl
        simp only [if_true]
        exact ih hcopy hread
      | false =>
        obtain ⟨mode, uid, gid, hheld⟩ := hcopy.holding
        simp only [Bool.false_eq_true, if_false, wp_pure]
        exact ⟨written', mode, uid, gid, hheld, by simp⟩

end Loops

/-! ### All or nothing -/

/-- The destination is what it was, and a temporary file that was made is gone. -/
structure Untouched (s t : Machine) (dst : CString) : Prop where
  lstat : t.fs.lstat t.cwd dst = s.fs.lstat s.cwd dst
  stat : t.fs.stat t.cwd dst = s.fs.stat s.cwd dst
  gone : (∀ x, s.fs.lstat s.cwd (temporary dst) ≠ .ok x) →
    ∀ x, t.fs.lstat t.cwd (temporary dst) ≠ .ok x

/-- The destination becomes a copy of the source, or an error leaves it as it was. The last call of a
run that has opened a stream and ends with an error is the `unlink` of the temporary file. -/
structure AllOrNothing (host : Host) (n : ℕ) (s : Machine) (src dst : CString) (uid gid mode : ℕ)
    (fits : ℕ → Prop) : Prop where
  ok : ∀ t, (fileCopy src dst uid gid mode host n s).ending = .done () t →
    Copied s t src dst uid gid fits
  error : ∀ e t, (fileCopy src dst uid gid mode host n s).ending = .raised e t →
    (openedOf (fileCopy src dst uid gid mode host n s).log ≠ [] → ¬ LastFailed host t) →
    Untouched s t dst

/-- Where the temporary file is made there is nothing, or a regular file to which neither name
leads. -/
structure Apart (s : Machine) (src dst : CString) : Prop where
  flat : ∀ q, FileSys.entry s.fs s.cwd (temporary dst) = some q → Flat (s.fs.node q)
  src : ∀ q, FileSys.entry s.fs s.cwd (temporary dst) = some q → s.fs.follow s.cwd src ≠ some q
  dst : ∀ q, FileSys.entry s.fs s.cwd (temporary dst) = some q → s.fs.follow s.cwd dst ≠ some q

theorem Undone.untouched {src dst : CString} (h : Undone s t q)
    (hq : FileSys.entry s.fs s.cwd (temporary dst) = some q) (hapart : Apart s src dst) :
    Untouched s t dst := by
  have hflat' : Flat (t.fs.node q) := fun x hx => absurd (h.gone.symm.trans hx) (by simp)
  have helse : Elsewhere q s.fs t.fs := ⟨h.node, hapart.flat q hq, hflat'⟩
  have hstat : t.fs.stat s.cwd dst = s.fs.stat s.cwd dst :=
    stat_elsewhere helse h.gone (hapart.dst q hq)
  have hlstat : t.fs.lstat s.cwd dst = s.fs.lstat s.cwd dst :=
    lstat_elsewhere helse hstat fun hslash => entry_temporary hq hslash
  refine ⟨h.cwd ▸ hlstat, h.cwd ▸ hstat, fun _ x hx => ?_⟩
  have hentry : FileSys.entry t.fs t.cwd (temporary dst) = some q := by
    rw [h.cwd, entry_elsewhere helse, hq]
  have hthere := lstat_entry (slashed_temporary dst) hentry hx
  rw [h.gone] at hthere
  exact absurd hthere (by simp)

/-! ### Opening the temporary file -/

/-- A path name that ends in no slash has a last component. -/
theorem components_ne_nil {path : CString} (hnil : path ≠ []) (hslash : ¬ Slashed path) :
    components path ≠ [] := by
  obtain ⟨ds, chunk, hchunk, hempty, hcs⟩ := exists_chunk path
  have hcs := hcs [] (by simp)
  rw [List.append_nil, List.append_nil, components_chunk hchunk] at hcs
  rcases hc : component chunk with _ | c
  · rcases hempty (component_eq_none hchunk hc) with rfl | hslashed
    · exact absurd rfl hnil
    · exact absurd hslashed hslash
  · simp [hcs, hc]

/-- A walk that ends in a directory, by `.` or `..`. -/
theorem isDir_of_walk_dots {fs : FileSys} {l : ℕ} {dir p : Place} {c : Component}
    (hc : ∀ m, c ≠ .name m) (h : fs.walk true l dir [c] = some p) : IsDir (fs.node p) := by
  cases c with
  | name m => exact absurd rfl (hc m)
  | here =>
    rw [walk_here, walk_nil] at h
    split_ifs at h with hdir
    rwa [← Option.some.inj h]
  | up =>
    rw [walk_up, walk_nil] at h
    split_ifs at h with hdir
    rw [← Option.some.inj h]
    cases dir with
    | nil => exact hdir
    | cons m dir => exact isDir_of_node hdir.ne_none

theorem openWrite_ok {fs fs' : FileSys} {cwd p : Place} {path : CString} {mode uid gid : ℕ}
    (hflat : ∀ q, FileSys.entry fs cwd path = some q → Flat (fs.node q))
    (h : fs.openWrite cwd path mode uid gid = .ok (p, fs')) :
    ¬ Slashed path ∧ FileSys.entry fs cwd path = some p ∧ (∀ r, r ≠ p → fs'.node r = fs.node r) ∧
      ∃ mode uid gid, fs'.node p = some (file [] mode uid gid) := by
  unfold FileSys.openWrite at h
  split_ifs at h with hnil hslash
  rcases hw : fs.walk true maxSymlinks (start cwd path) (components path) with _ | _ | ⟨n, dir⟩
  · simp [hw] at h
  · simp [hw] at h
  obtain ⟨ds, c, hcs⟩ : ∃ ds c, components path = ds ++ [c] :=
    ⟨_, _, (List.dropLast_append_getLast (components_ne_nil hnil hslash)).symm⟩
  simp only [hw] at h
  rw [hcs] at hw
  obtain ⟨dir', l, hdir', hlast⟩ := walk_create_split (by simp) _ hw
  by_cases hname : ∀ m, c ≠ .name m
  · rw [if_pos (isDir_of_walk_dots hname hlast)] at h
    exact absurd h (by simp)
  · push Not at hname
    obtain ⟨m, rfl⟩ := hname
    have hisDir : IsDir (fs.node dir') := by
      by_contra hno
      simp [walk_name, hno] at hlast
    have hentry : FileSys.entry fs cwd path = some (m :: dir') :=
      entry_iff.mpr ⟨ds, m, dir', hcs, hdir', hisDir, rfl⟩
    have hnode := hflat _ hentry
    obtain ⟨-, hplace⟩ := walk_create_last hnode hlast
    obtain ⟨rfl, rfl⟩ := List.cons.inj hplace
    split_ifs at h with hdir hnone
    · obtain ⟨rfl, rfl⟩ := Prod.mk.inj (Except.ok.inj h)
      refine ⟨hslash, hentry, fun r hr => ?_, mode, uid, gid, ?_⟩
      · rw [node_put, if_neg hr]
      · rw [node_put, if_pos rfl]
        rfl
    · obtain ⟨rfl, rfl⟩ := Prod.mk.inj (Except.ok.inj h)
      obtain ⟨⟨kind, mode', uid', gid'⟩, hx⟩ := Option.ne_none_iff_exists'.mp hnone
      obtain ⟨content, rfl⟩ : ∃ content, kind = .regular content := hnode _ hx
      refine ⟨hslash, hentry, fun r hr => ?_, mode', uid', gid', ?_⟩
      · rw [node_adjust, if_neg hr]
      · rw [node_adjust, if_pos rfl, hx]
        rfl

section Whole

variable {host : Host} {n : ℕ} {h : List Event}

theorem wp_opened {path : CString} {Q : Post Failure Machine Event (Option ℕ)}
    (hfail : ∀ e, Q.done none h (t.afterCall (some e)))
    (hok : ∀ p, t.fs.follow t.cwd path = some p →
      Q.done (some (t.calls + 1)) (h ++ [.opened (t.calls + 1)]) (opening (t.afterCall none) p)) :
    wp host n id (fopenRead path) Q h t := by
  rw [fopenRead, wp_bind]
  refine wp_query (fun e _ => ?_) fun p hp => ?_
  · exact (wp_pure _).mpr (hfail e)
  · have hf : t.fs.follow t.cwd path = some p := by
      rcases hf : t.fs.follow t.cwd path with _ | p' <;> simp [Machine.file, hf] at hp
      rw [hp]
    simp only [wp_bind, wp_openStream, wp_pure]
    exact hok p hf

theorem wp_created {path : CString} {Q : Post Failure Machine Event (Option ℕ)}
    (hfail : ∀ e, Q.done none h (t.afterCall (some e)))
    (hok : ∀ p fs, t.fs.openWrite t.cwd path (host.masked 511 438) host.uid host.gid = .ok (p, fs) →
      Q.done (some (t.calls + 1)) (h ++ [.opened (t.calls + 1)])
        (opening { t.afterCall none with fs := fs } p)) :
    wp host n id (fopenWrite path) Q h t := by
  rw [fopenWrite, wp_bind, create, wp_step]
  rcases hfault : host.fault t.calls with _ | e
  · rcases hopen : t.fs.openWrite t.cwd path (host.masked 511 438) host.uid host.gid with e | ⟨p, fs⟩
    · exact (wp_pure _).mpr (hfail e)
    · simp only [wp_bind, wp_openStream, wp_pure]
      exact hok p fs hopen
  · exact (wp_pure _).mpr (hfail e)

/-- Both streams are open, and nothing is copied yet. -/
theorem wp_copying {src dst : CString} {r : Place} {k k' : ℕ}
    (hcopy : Copying s t q r k k' 0 false []) (hne : k ≠ k') (hr : r ≠ q)
    (hsrc : s.fs.follow s.cwd src = some r) (hflat : Flat (s.fs.node q))
    (hq : FileSys.entry s.fs s.cwd tmp = some q) (hslash : ¬ Slashed tmp) :
    wp host n id (copying k k' tmp dst uid gid mode)
      (endPost host s q src dst uid gid mode) h t := by
  have hread : Reading (contentOf (s.fs.node r)) 0 false [] := ⟨fun _ _ => rfl, by simp⟩
  rw [copying, wp_bind, wp_bounded]
  refine wp_mono (wp_copyLoop hne hr n hcopy hread) ?_ (fun _ _ _ hf => absurd hf id) fun _ => id
  rintro failure h₁ u ⟨content, perm, user, group, hheld, hwhole⟩
  rcases failure with _ | message
  · have hcontent : fileContent s.fs s.cwd src = some content := by
      rw [fileContent, hsrc]
      exact hwhole rfl
    exact wp_copyWritten hheld hflat hq hslash hcontent _ _
  · exact wp_mono (wp_copyFailed hheld hflat hq hslash _ _ _) (fun _ _ _ hf => absurd hf id)
      (fun _ _ _ => id) fun _ => id

/-- How a copy ends. -/
def copyPost (host : Host) (s : Machine) (tmp src dst : CString) (uid gid mode : ℕ) :
    Post Failure Machine Event Unit where
  done _ _ t := Copied s t src dst uid gid (SameBits mode) ∧ ¬ Slashed dst ∧
    ∃ q p, FileSys.entry s.fs s.cwd tmp = some q ∧ FileSys.entry s.fs s.cwd dst = some p ∧
      Renamed s t q p
  raised _ h t := (openedOf h ≠ [] ∧ LastFailed host t) ∨ (t.fs = s.fs ∧ t.cwd = s.cwd) ∨
    ∃ q, FileSys.entry s.fs s.cwd tmp = some q ∧ Undone s t q
  stopped _ := True

theorem wp_fileCopy {src dst : CString}
    (htmp : snprintf maxPathLen (dst ++ ".tmp".toList) = some tmp)
    (hplace : ∀ q, FileSys.entry s.fs s.cwd tmp = some q → Flat (s.fs.node q))
    (hsrc : ∀ q, FileSys.entry s.fs s.cwd tmp = some q → s.fs.follow s.cwd src ≠ some q) :
    wp host n id (fileCopy src dst uid gid mode) (copyPost host s tmp src dst uid gid mode) h s := by
  unfold fileCopy
  rw [htmp]
  simp only [wp_bind, wp_doing]
  refine wp_opened (fun e => ?_) fun r hr => ?_
  · simp only [Option.isNone_none, if_true, wp_fail]
    exact .inr (.inl ⟨rfl, rfl⟩)
  simp only [Option.isNone_some, Bool.false_eq_true, if_false, wp_bind]
  refine wp_created (fun e => ?_) fun q fs hopen => ?_
  · simp only [Option.isNone_none, if_true]
    exact trivial
  simp only [Option.isNone_some, Bool.false_eq_true, if_false]
  obtain ⟨hslash, hq, hother, perm, user, group, hfile⟩ := openWrite_ok hplace hopen
  have hflat := hplace q hq
  have hsame : r ≠ q := by
    rintro rfl
    exact hsrc r hq hr
  have hne : s.calls + 1 ≠ (opening (s.afterCall none) r).calls + 1 := by
    change s.calls + 1 ≠ s.calls + 1 + 1
    omega
  have hcopy :
      Copying s (opening { (opening (s.afterCall none) r).afterCall none with fs := fs } q) q r
      (s.calls + 1) ((opening (s.afterCall none) r).calls + 1) 0 false [] := by
    refine ⟨⟨perm, user, group, rfl, hother, hfile⟩, ⟨false, ?_⟩, false, ?_⟩
    · refine (Function.update_of_ne hne _ _).trans ?_
      exact Function.update_self _ _ _
    · exact Function.update_self _ _ _
  refine wp_mono (wp_history (wp_copying hcopy hne hsame hr hflat hq hslash)) ?_ ?_ fun _ _ => trivial
  · rintro _ h' t ⟨⟨hcopied, hslash, p, hp, hrenamed⟩, -⟩
    exact ⟨hcopied, hslash, q, p, hq, hp, hrenamed⟩
  · rintro e h' t ⟨hlast | hundone, l, rfl⟩
    · exact .inl ⟨by simp [openedOf], hlast⟩
    · exact .inr (.inr ⟨q, hq, hundone⟩)

end Whole

/-- **A copy is all or nothing**, if the place of its temporary file is free for it. -/
theorem all_or_nothing {src dst : CString} (hlen : (temporary dst).length < maxPathLen)
    (hapart : Apart s src dst) (host : Host) (n uid gid mode : ℕ) :
    AllOrNothing host n s src dst uid gid mode (SameBits mode) := by
  have hwp : wp host n id (fileCopy src dst uid gid mode)
      (copyPost host s (temporary dst) src dst uid gid mode) [] s :=
    wp_fileCopy (snprintf_of_fit hlen) hapart.flat hapart.src
  refine ⟨fun t hrun => (wp_done hwp hrun).1, fun e t hrun hlast => ?_⟩
  have hpost := wp_raised hwp hrun
  rw [List.nil_append, List.map_id] at hpost
  rcases hpost with ⟨hopened, hfailed⟩ | ⟨hfs, hcwd⟩ | ⟨q, hq, hundone⟩
  · exact absurd hfailed (hlast hopened)
  · refine ⟨by rw [hfs, hcwd], by rw [hfs, hcwd], fun hnone => ?_⟩
    rwa [hfs, hcwd]
  · exact hundone.untouched hq hapart

/-! ### Copies of small files -/

/-- The name `b.tmp`. -/
def nameTmp : Name := ⟨['b', '.', 't', 'm', 'p'], by decide, by decide, by decide, by decide⟩

/-- A file `a` with three bytes. -/
def textFile : FileSys := FileSys.bare.withFile nameA "abc".toList 420 (bare_node nameA)

/-- A host on which every call moves one byte. -/
def trickling : Host := { Host.quiet with chunk := fun _ => some 1 }

/-- The file that a copy made. -/
def madeFile (e : Ending Failure Machine Unit) (p : Place) : Option Node :=
  match e with
  | .done _ t => t.fs.node p
  | _ => none

theorem all_or_nothing_trickling :
    let run := fileCopy ['a'] ['b'] 0 0 420 trickling 9 (Machine.initial textFile [])
    madeFile run.ending [nameB] = some (file "abc".toList 420 0 0) ∧
      AllOrNothing trickling 9 (Machine.initial textFile []) ['a'] ['b'] 0 0 420 (SameBits 420) := by
  have hentry : FileSys.entry textFile [] (temporary ['b']) = some [nameTmp] := by decide +kernel
  have hfree : textFile.node [nameTmp] = none := by decide
  refine ⟨by decide +kernel, all_or_nothing (by decide)
    ⟨fun q hq => ?_, fun q hq => ?_, fun q hq => ?_⟩ _ _ _ _ _⟩
  · obtain rfl := Option.some.inj (hentry.symm.trans hq)
    intro x hx
    rw [show (Machine.initial textFile []).fs.node [nameTmp] = none from hfree] at hx
    exact absurd hx (by simp)
  · obtain rfl := Option.some.inj (hentry.symm.trans hq)
    decide +kernel
  · obtain rfl := Option.some.inj (hentry.symm.trans hq)
    decide +kernel

/-- The empty file `a`, and `b.tmp`, a link to `b`. -/
def linkFiles : FileSys := oneFile.put nameTmp [] ⟨.symlink ['b'], 511, 0, 0⟩ (by decide) (by decide)

theorem not_exact {s : Machine} {mode : ℕ} {x : Node}
    (hentry : FileSys.entry s.fs s.cwd ['b'] = some [nameB])
    (hmade : madeFile (fileCopy ['a'] ['b'] 0 0 mode Host.quiet 9 s).ending [nameB] = some x)
    (hx : ∀ content, x ≠ file content mode 0 0) :
    ¬ AllOrNothing Host.quiet 9 s ['a'] ['b'] 0 0 mode (· = mode) := fun hall => by
  rcases hend : (fileCopy ['a'] ['b'] 0 0 mode Host.quiet 9 s).ending with ⟨_, t⟩ | ⟨e, t⟩ | _ | _ <;>
    rw [hend] at hmade
  · obtain ⟨content, p, got, -, hp, rfl, hnode⟩ := hall.ok t hend
    obtain rfl := Option.some.inj (hentry.symm.trans hp)
    exact hx content (Option.some.inj (hmade.symm.trans hnode))
  · simp [madeFile] at hmade
  · simp [madeFile] at hmade
  · simp [madeFile] at hmade

/-- Where `b.tmp` is a link to `b`, the copy to `b` ends as a link to itself; and an executable file
does not get the set-user-ID bit that is requested. -/
theorem not_all_or_nothing :
    ¬ AllOrNothing Host.quiet 9 (Machine.initial linkFiles []) ['a'] ['b'] 0 0 420 (· = 420) ∧
    ¬ AllOrNothing Host.quiet 9 (Machine.initial oneFile []) ['a'] ['b'] 0 0 2541 (· = 2541) := by
  constructor
  · refine not_exact (x := ⟨.symlink ['b'], 511, 0, 0⟩) (by decide +kernel) (by decide +kernel) ?_
    simp [file]
  · refine not_exact (x := ⟨.regular [], 493, 0, 0⟩) (by decide +kernel) (by decide +kernel) ?_
    simp [file]

end LuaAdaLoad.Install.FileCopies
