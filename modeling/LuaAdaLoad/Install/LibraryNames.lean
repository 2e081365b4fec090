import LuaAdaLoad.Install.TranslatedNames

/-!
# Library names from files

`libname` copies the first word of a file into a buffer of `INSTALL_MAX_PATHLEN` bytes and puts a
zero behind it. The zero is written behind the buffer where the first 1024 bytes of the file are one
word; otherwise all writes are inside, and the buffer holds the word.
-/

namespace LuaAdaLoad.Install.LibraryNames

open LuaAdaLoad.Control.Actions LuaAdaLoad.Control.Weakest LuaAdaLoad.System.Paths
open LuaAdaLoad.System.FileSystem LuaAdaLoad.Install.Posix LuaAdaLoad.Install.Translation
open LuaAdaLoad.Install.Calls LuaAdaLoad.Install.TranslatedNames

/-- The bytes before the first space, tab, newline or carriage return. -/
def firstWord (content : CString) : CString := content.takeWhile fun c => !isBlank c

/-- A memory after some writes. -/
def written (writes : List (ℕ × Char)) (memory : ℕ → Char) : ℕ → Char :=
  writes.foldl (fun m w => Function.update m w.1 w.2) memory

/-- A text and a zero stand in a memory. -/
def Terminated (memory : ℕ → Char) (text : CString) : Prop :=
  (∀ i (hi : i < text.length), memory i = text[i]) ∧ memory text.length = '\x00'

/-- All writes for a file go inside of the two buffers, and leave its first word in `buf`. -/
structure Contained (content : CString) : Prop where
  buf : ∀ w ∈ bufWrites (content.take maxPathLen), w.1 < maxPathLen
  readBuf : ∀ i ∈ readBufWrites (content.take maxPathLen), i < maxPathLen
  word : ∀ memory, Terminated (written (bufWrites (content.take maxPathLen)) memory)
    (firstWord content)

theorem written_range (f : ℕ → Char) (memory : ℕ → Char) (k : ℕ) :
    written ((List.range k).map fun i => (i, f i)) memory =
      fun i => if i < k then f i else memory i := by
  induction k with
  | zero => simp [written]
  | succ k ih =>
    rw [List.range_succ, List.map_append, written, List.foldl_append]
    change Function.update (written _ memory) k (f k) = _
    rw [ih]
    funext i
    rcases Nat.lt_trichotomy i k with hi | rfl | hi
    · rw [Function.update_of_ne (by omega), if_pos hi, if_pos (by omega)]
    · rw [Function.update_self, if_pos (by omega)]
    · rw [Function.update_of_ne (by omega), if_neg (by omega), if_neg (by omega)]

theorem terminated_bufWrites (bytes : CString) (memory : ℕ → Char) :
    Terminated (written (bufWrites bytes) memory) (firstWord bytes) := by
  have hlen : (firstWord bytes).length = wordLength bytes := (wordLength_eq bytes).symm
  have hmemory : written (bufWrites bytes) memory =
      Function.update (fun i => if i < wordLength bytes then bytes.getD i '\x00' else memory i)
        (wordLength bytes) '\x00' := by
    rw [bufWrites, written, List.foldl_append]
    change Function.update (written _ memory) _ _ = _
    rw [written_range]
  rw [hmemory]
  refine ⟨fun i hi => ?_, ?_⟩
  · have hbytes : i < bytes.length :=
      lt_of_lt_of_le hi (List.takeWhile_prefix _).length_le
    rw [hlen] at hi
    rw [Function.update_of_ne (by omega), if_pos hi]
    have hword : firstWord bytes = bytes.take (wordLength bytes) := (take_wordLength bytes).symm
    simp [hword, hbytes]
  · rw [hlen, Function.update_self]

theorem firstWord_take (content : CString) (k : ℕ) :
    firstWord (content.take k) = (firstWord content).take k := by
  rw [firstWord, firstWord, List.take_takeWhile]

/-- **The writes are inside** just if the first word of the file leaves room for the zero. -/
theorem contained_iff (content : CString) :
    Contained content ↔ (firstWord content).length < maxPathLen := by
  have hlen : wordLength (content.take maxPathLen) =
      min maxPathLen (firstWord content).length := by
    rw [wordLength_eq, ← List.length_take, ← firstWord_take, firstWord]
  constructor
  · intro h
    have hlt := (bufWrites_lt_iff _).mp h.buf
    omega
  · intro h
    have hword : firstWord (content.take maxPathLen) = firstWord content := by
      rw [firstWord_take, List.take_of_length_le h.le]
    refine ⟨(bufWrites_lt_iff _).mpr (by omega), fun i hi => ?_, fun memory => ?_⟩
    · rcases List.mem_append.mp hi with hi | hi
      · have := List.mem_range.mp hi
        rw [List.length_take] at this
        omega
      · split_ifs at hi
        · rw [List.mem_singleton.mp hi]
          omega
        · simp at hi
    · exact hword ▸ terminated_bufWrites _ memory

/-! ### The function -/

variable {host : Host} {n : ℕ} {s : Machine}

theorem wp_query_ok {α : Type} {f : Machine → Except Errno α} {a : α} {h : List Event}
    {Q : Post Failure Machine Event (Option α)} (hfault : host.fault s.calls = none)
    (hf : f s = .ok a) :
    wp host n id (query f) Q h s ↔ Q.done (some a) h (s.afterCall none) := by
  rw [query, wp_step]
  simp only [hfault, hf]

/-- `libname` of a file that can be opened and read. -/
theorem wp_libname_read {name content : CString} {h : List Event} (buf : Static)
    (hwhole : ∀ k, host.chunk k = none) (hopen : host.fault s.calls = none)
    (hread : host.fault (s.calls + 1) = none)
    (hcontent : fileContent s.fs s.cwd name = some content) :
    wp host n id (libname name buf)
      ⟨fun _ _ t => t.statics buf = (firstWord content).takeWhile fun c => c ≠ '\x00',
        fun _ _ _ => False, fun _ => maxPathLen ≤ (firstWord content).length⟩ h s := by
  obtain ⟨p, hp, hc⟩ := Option.bind_eq_some_iff.mp hcontent
  have hfile : s.file name = .ok p := by simp [Machine.file, hp]
  rw [libname, wp_bind, fopenRead, wp_bind, wp_query_ok hopen hfile]
  simp only [wp_bind, wp_openStream, wp_pure, Option.isNone_some, Bool.false_eq_true, if_false]
  set t := opening (s.afterCall none) p with ht
  have hstream : t.streams (s.afterCall none).calls = some ⟨p, 0, false, false⟩ := by
    simp [ht, opening]
  have hfault : host.fault t.calls = none := hread
  have hnode : contentOf (t.fs.node p) = some content := hc
  rw [fread, wp_withStream hstream, wp_step]
  have hshare : host.share t.calls (min maxPathLen content.length) =
      min maxPathLen content.length := by
    simp [Host.share, hwhole]
  have htake : content.take (min maxPathLen content.length) = content.take maxPathLen := by
    rw [← List.take_take, List.take_length]
  simp only [Machine.readFrom, hfault, hnode, List.drop_zero, hshare, htake]
  set f : Stream := ⟨p, 0 + min maxPathLen content.length, _, false⟩ with hf
  set u := { t.afterCall none with
    streams := Function.update t.streams (s.afterCall none).calls (some f) } with hu
  have hopened : u.streams (s.afterCall none).calls = some f := Function.update_self _ _ _
  rw [wp_ferror hopened]
  simp only [hf, Bool.false_eq_true, and_false, if_false, bufWrites_lt_iff]
  have hlen : wordLength (content.take maxPathLen) =
      min maxPathLen (firstWord content).length := by
    rw [wordLength_eq, ← List.length_take, ← firstWord_take, firstWord]
  split_ifs with hfits
  · simp only [wp_bind, wp_store]
    refine wp_fclose (f := f) hopened fun b v hv _ => ?_
    have hword : firstWord (content.take maxPathLen) = firstWord content := by
      rw [firstWord_take, List.take_of_length_le (by omega)]
    change v.statics buf = _
    rw [hv.statics, stored_statics, take_wordLength, ← hword, firstWord]
  · rw [wp_abort]
    omega

/-- **`libname` stays inside its buffers** and leaves the first word if and only if that word is
shorter than the buffer. -/
theorem libname_contained_iff {name content : CString} (n : ℕ) (buf : Static)
    (hwhole : ∀ k, host.chunk k = none) (hopen : host.fault s.calls = none)
    (hread : host.fault (s.calls + 1) = none)
    (hcontent : fileContent s.fs s.cwd name = some content) :
    (Contained content ∧ ∃ ok t, (libname name buf host n s).ending = .done ok t ∧
      t.statics buf = (firstWord content).takeWhile fun c => c ≠ '\x00') ↔
    (firstWord content).length < maxPathLen := by
  rw [← contained_iff]
  refine ⟨fun h => h.1, fun hin => ⟨hin, ?_⟩⟩
  have hlt := (contained_iff content).mp hin
  have hrun := wp_libname_read (n := n) (h := []) buf hwhole hopen hread hcontent
  unfold wp at hrun
  rcases hend : (libname name buf host n s).ending with ⟨ok, t⟩ | ⟨e, t⟩ | _ | _ <;>
    rw [hend] at hrun
  · exact ⟨ok, t, rfl, hrun⟩
  · exact absurd hrun id
  · exact absurd hlt (not_lt.mpr hrun)
  · exact absurd hlt (not_lt.mpr hrun)

/-- A file system with one file, `m.vlb`. -/
def oneFile (content : CString) : FileSys :=
  FileSys.bare.withFile nameVlb content 420 (bare_node nameVlb)

theorem libname_contained_libm :
    Contained "libm.so.1\n".toList ∧ ∃ ok t,
      (libname "m.vlb".toList .copySrcName Host.quiet 0
        (Machine.initial (oneFile "libm.so.1\n".toList) [])).ending = .done ok t ∧
      t.statics .copySrcName = "libm.so.1".toList := by
  have hcontent : fileContent (oneFile "libm.so.1\n".toList) [] "m.vlb".toList =
      some "libm.so.1\n".toList := by
    decide +kernel
  have hword : (firstWord "libm.so.1\n".toList).length < maxPathLen := by decide
  exact (libname_contained_iff (s := Machine.initial (oneFile "libm.so.1\n".toList) []) 0
    .copySrcName (fun _ => rfl) rfl rfl hcontent).mpr hword

theorem zero_mem_bufWrites (bytes : CString) : (wordLength bytes, '\x00') ∈ bufWrites bytes :=
  List.mem_append_right _ (List.mem_singleton_self _)

/-- A file of 1024 bytes without a blank: the zero is written behind the buffer. -/
theorem zero_behind_buffer : ¬ Contained (List.replicate maxPathLen 'x') ∧
    ∃ w ∈ bufWrites ((List.replicate maxPathLen 'x').take maxPathLen), w.1 = maxPathLen := by
  have hlong : ∀ k, wordLength ((List.replicate k 'x').take k) = k := fun k => by
    rw [List.take_of_length_le List.length_replicate.le, wordLength_eq,
      List.takeWhile_replicate, if_pos (by decide), List.length_replicate]
  have hmem := zero_mem_bufWrites ((List.replicate maxPathLen 'x').take maxPathLen)
  rw [hlong] at hmem
  exact ⟨fun h => absurd (h.buf _ hmem) (lt_irrefl maxPathLen), _, hmem, rfl⟩

end LuaAdaLoad.Install.LibraryNames
