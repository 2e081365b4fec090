import LuaAdaLoad.Install.Calls

/-!
# What the translators compute

On strings a translator is a partial function of the item, of the library names in its files and of
the suffixes (`copyNames` and so on). The translators of the programs work on pointers and static
buffers; each of them gives an item whose pointers read, at its end, as that function says, and on a
sound host it fails only where the function is not defined (`Translates`).
-/

namespace LuaAdaLoad.Install.TranslatedNames

open LuaAdaLoad.Control.Actions LuaAdaLoad.Control.Weakest LuaAdaLoad.System.Paths
open LuaAdaLoad.System.FileSystem LuaAdaLoad.Install.Posix LuaAdaLoad.Install.Translation
open LuaAdaLoad.Install.Calls

/-! ### The first word of a file -/

theorem scanWord_eq (bytes : CString) : ∀ r s, s + r = bytes.length →
    scanWord bytes r s = s + ((bytes.drop s).takeWhile fun c => !isBlank c).length := by
  intro r
  induction r with
  | zero =>
    intro s hs
    rw [scanWord, List.drop_of_length_le (by omega)]
    rfl
  | succ r ih =>
    intro s hs
    have hlt : s < bytes.length := by omega
    have hget : bytes.getD s '\x00' = bytes[s] := by simp [hlt]
    rw [scanWord, hget, List.drop_eq_getElem_cons hlt, List.takeWhile_cons]
    cases hblank : isBlank bytes[s] with
    | true => simp
    | false =>
      rw [if_neg (by simp), ih (s + 1) (by omega)]
      simp only [Bool.not_false, if_true, List.length_cons]
      omega

theorem wordLength_eq (bytes : CString) :
    wordLength bytes = (bytes.takeWhile fun c => !isBlank c).length := by
  rw [wordLength, scanWord_eq bytes _ 0 (Nat.zero_add _), List.drop_zero, Nat.zero_add]

theorem take_wordLength (bytes : CString) :
    bytes.take (wordLength bytes) = bytes.takeWhile fun c => !isBlank c := by
  rw [wordLength_eq]
  exact (List.prefix_iff_eq_take.mp (List.takeWhile_prefix _)).symm

/-- The terminating zero is what is written last, and farthest. -/
theorem bufWrites_lt_iff (bytes : CString) :
    (∀ w ∈ bufWrites bytes, w.1 < maxPathLen) ↔ wordLength bytes < maxPathLen := by
  constructor
  · intro h
    exact h (wordLength bytes, '\x00') (by simp [bufWrites])
  · intro h w hw
    rcases List.mem_append.mp hw with hw | hw
    · obtain ⟨i, hi, rfl⟩ := List.mem_map.mp hw
      exact (List.mem_range.mp hi).trans h
    · obtain rfl := List.mem_singleton.mp hw
      exact h

/-! ### On strings -/

/-- The library name in the contents of a file. -/
def wordOf (content : CString) : Option CString :=
  let clean := (content.take maxPathLen).takeWhile fun c => !isBlank c
  if clean.length < maxPathLen then some (clean.takeWhile fun c => c ≠ '\x00') else none

/-- The library name in a file. -/
def wordIn (fs : FileSys) (cwd : Place) (name : CString) : Option CString :=
  (fileContent fs cwd name).bind wordOf

/-- A name, or the library name in the file of that name. -/
def libraryOr (word : CString → Option CString) (name : CString) : Option CString :=
  if isLibrary name then word name else some name

def copyNames (word : CString → Option CString) (item : InstallItem CString) :
    Option (InstallItem CString) := do
  let src ← item.src
  let dir ← item.dir
  let lib ← libraryOr word src
  let dst ← libraryOr word (item.dst.getD src)
  let base ← baseNameOf dst
  let path ← snprintf maxPathLen (joined dir base)
  pure { item with src := some lib, dst := some path }

def execNames (suffix : CString) (item : InstallItem CString) : Option (InstallItem CString) := do
  let src ← snprintf maxPathLen (item.src.getD [] ++ suffix)
  let dst ← snprintf maxPathLen (item.dst.getD [] ++ suffix)
  pure { item with src := some src, dst := some dst }

def linkNames (item : InstallItem CString) : Option (InstallItem CString) := do
  let _ ← item.src
  let _ ← item.dir
  let _ ← item.dst
  pure item

/-- The base name of the library name in a file. -/
def libraryBase (word : CString → Option CString) (name : CString) : Option CString :=
  if isLibrary name then (word name).bind baseNameOf else some name

def liblinkNames (word : CString → Option CString) (suffix : CString)
    (item : InstallItem CString) : Option (InstallItem CString) := do
  let src ← item.src
  let _ ← item.dir
  let dst ← item.dst
  let lib ← libraryBase word src
  let base ← baseNameOf dst
  let name ← snprintf maxPathLen (base ++ suffix)
  pure { item with src := some lib, dst := some name }

def mkdirNames (item : InstallItem CString) : InstallItem CString :=
  { item with dst := item.dst <|> item.src }

/-- The directory in front of the name. -/
def inDirNames (item : InstallItem CString) : Option (InstallItem CString) := do
  let path ← snprintf maxPathLen (joined (item.dir.getD []) (item.dst.getD []))
  pure { item with dst := some path }

/-! ### Pointers that read as strings -/

/-- The item with its pointers read. -/
def reading (statics : Static → CString) (ins : InstallItem Ptr) : InstallItem CString :=
  { op := ins.op
    src := ins.src.map (Ptr.read statics)
    dst := ins.dst.map (Ptr.read statics)
    dir := ins.dir.map (Ptr.read statics)
    owner := ins.owner
    group := ins.group
    perm := ins.perm }

@[simp] theorem reading_loaded (statics : Static → CString) (item : InstallItem CString) :
    reading statics (loaded item) = item := by
  have hmap : ∀ o : Option CString, (o.map Ptr.text).map (Ptr.read statics) = o := fun o => by
    cases o <;> rfl
  simp [reading, loaded, hmap]

/-- A pointer into none but these static buffers. -/
def PtrIn (bufs : List Static) (p : Ptr) : Prop := ∀ b, p = .static b → b ∈ bufs

/-- All names of an item point into none but these static buffers. -/
structure Pointing (bufs : List Static) (ins : InstallItem Ptr) : Prop where
  src : ∀ p, ins.src = some p → PtrIn bufs p
  dst : ∀ p, ins.dst = some p → PtrIn bufs p
  dir : ∀ p, ins.dir = some p → PtrIn bufs p

/-- Of the static buffers only the listed ones are different. -/
def SameBut (bufs : List Static) (s s' : Machine) : Prop :=
  ∀ b, b ∉ bufs → s'.statics b = s.statics b

/-- A part of a translator gives a pointer into `into` that reads as `o`; it changes the buffers
`bufs` only, and on a sound host it fails only where there is no such string. -/
def ptrPost (host : Host) (s : Machine) (bufs into : List Static) (o : Option CString) :
    Post Failure Machine Event Ptr where
  done p _ t := Kept s t ∧ SameBut bufs s t ∧ PtrIn into p ∧ o = some (p.read t.statics)
  raised _ _ _ := host.Sound → o = none
  stopped _ := host.Sound → o = none

/-- A translator gives an item that reads as `o`; on a sound host it fails only where there is no
such item. -/
def itemPost (host : Host) (s : Machine) (bufs : List Static)
    (o : Option (InstallItem CString)) : Post Failure Machine Event (InstallItem Ptr) where
  done ins _ t := Kept s t ∧ Pointing bufs ins ∧ o = some (reading t.statics ins)
  raised _ _ _ := host.Sound → o = none
  stopped _ := host.Sound → o = none

variable {host : Host} {n : ℕ} {h : List Event} {s : Machine}

theorem sameBut_refl (s : Machine) (bufs : List Static) : SameBut bufs s s := fun _ _ => rfl

theorem SameBut.trans {bufs bufs' : List Static} {s t u : Machine} (h : SameBut bufs s t)
    (h' : SameBut bufs' t u) : SameBut (bufs ++ bufs') s u := fun b hb => by
  rw [List.mem_append, not_or] at hb
  rw [h' b hb.2, h b hb.1]

theorem sameBut_stored (s : Machine) (b : Static) (text : CString) :
    SameBut [b] s (stored s b text) := fun c hc =>
  stored_statics_of_ne (by simpa using hc) text

/-- A pointer reads the same while none of its buffers changes. -/
theorem SameBut.read {bufs bufs' : List Static} {s t : Machine} {p : Ptr} (h : SameBut bufs' s t)
    (hp : PtrIn bufs p) (hb : ∀ b ∈ bufs, b ∉ bufs') :
    p.read t.statics = p.read s.statics := by
  cases p with
  | text x => rfl
  | static b => exact h b (hb b (hp b rfl))

theorem SameBut.reading {bufs bufs' : List Static} {s t : Machine} {ins : InstallItem Ptr}
    (h : SameBut bufs' s t) (hp : Pointing bufs ins) (hb : ∀ b ∈ bufs, b ∉ bufs') :
    reading t.statics ins = reading s.statics ins := by
  have hmap : ∀ o : Option Ptr, (∀ p, o = some p → PtrIn bufs p) →
      o.map (Ptr.read t.statics) = o.map (Ptr.read s.statics) := fun o ho => by
    cases o with
    | none => rfl
    | some p => exact congrArg some (h.read (ho p rfl) hb)
  unfold TranslatedNames.reading
  rw [hmap _ hp.src, hmap _ hp.dst, hmap _ hp.dir]

theorem ptrIn_text (x : CString) : PtrIn [] (.text x) := fun _ h => by simp at h

theorem ptrIn_static (b : Static) : PtrIn [b] (.static b) := fun c h => by
  obtain rfl := Ptr.static.inj h
  simp

theorem PtrIn.mono {bufs bufs' : List Static} {p : Ptr} (h : PtrIn bufs p)
    (hb : ∀ b ∈ bufs, b ∈ bufs') : PtrIn bufs' p := fun b hp => hb b (h b hp)

/-- `libname`. -/
theorem wp_libname (hwhole : ∀ k, host.chunk k = none) (name : CString) (buf : Static) :
    wp host n id (libname name buf)
      ⟨fun ok _ t => Kept s t ∧ SameBut [buf] s t ∧
        (ok = true → wordIn s.fs s.cwd name = some (t.statics buf)) ∧
        (host.Sound → ok = false → wordIn s.fs s.cwd name = none),
        fun _ _ _ => False, fun _ => wordIn s.fs s.cwd name = none⟩ h s := by
  rw [libname, wp_bind]
  refine wp_fopenRead (fun e he => ?_) fun p hp k t ht hk => ?_
  · simp only [Option.isNone_none, if_true, wp_pure]
    refine ⟨(idle_afterCall s _).toKept, fun b _ => rfl, by simp, fun hsound _ => ?_⟩
    simp [wordIn, fileContent, he hsound]
  · have hcontent : fileContent s.fs s.cwd name = contentOf (t.fs.node p) := by
      simp [fileContent, hp, ht.fs]
    simp only [Option.isNone_some, Bool.false_eq_true, if_false, wp_bind]
    refine wp_fread_start hwhole hk (fun content hc f u hu hf herr => ?_)
      fun hno f u hu hf herr => ?_
    · have hword : wordIn s.fs s.cwd name = wordOf content := by
        rw [wordIn, hcontent, hc, Option.bind_some]
      simp only [wp_ferror hf, herr, Bool.false_eq_true, and_false, if_false]
      simp only [bufWrites_lt_iff, take_wordLength]
      simp only [wordLength_eq]
      by_cases hlen : ((content.take maxPathLen).takeWhile fun c => !isBlank c).length < maxPathLen
      · simp only [hlen, if_true, wp_bind, wp_store]
        refine wp_fclose (f := f) hf fun b v hv hb => ⟨?_, fun c hc => ?_, fun _ => ?_, ?_⟩
        · exact (ht.trans hu).toKept.trans ((kept_stored u buf _).trans hv.toKept)
        · rw [hv.statics, stored_statics_of_ne (by simpa using hc), (ht.trans hu).statics]
        · rw [hword, wordOf, if_pos hlen, hv.statics, stored_statics]
        · intro hsound hno
          rw [hb hsound] at hno
          exact absurd hno (by simp)
      · simp only [hlen, if_false]
        rw [wp_abort, hword, wordOf, if_neg hlen]
    · have hlt : ([] : CString).length < maxPathLen := by decide
      simp only [wp_ferror hf, herr, hlt, and_self, if_true, wp_bind]
      refine wp_fclose hf fun b v hv _ => ?_
      simp only [wp_pure]
      refine ⟨((ht.trans hu).trans hv).toKept, fun c _ => ?_, by simp, fun hsound _ => ?_⟩
      · rw [((ht.trans hu).trans hv).statics]
      · rw [wordIn, hcontent, hno hsound, Option.bind_none]

/-- A name, or the library name in the file of that name. -/
theorem wp_libraryName (hwhole : ∀ k, host.chunk k = none) (x : CString) (buf : Static) :
    wp host n id (libraryName (.text x) buf)
      (ptrPost host s [buf] [buf] (libraryOr (wordIn s.fs s.cwd) x)) h s := by
  simp only [libraryName, wp_bind, wp_load]
  unfold libraryOr
  change wp host n id (if isLibrary x = true then _ else _) _ h s
  split_ifs
  · simp only [wp_bind, wp_load]
    refine wp_mono (wp_libname hwhole x buf) ?_ (fun _ _ _ he => absurd he id)
      fun _ hstop _ => hstop
    rintro ok h' t ⟨hkept, hsame, hok, hno⟩
    cases ok with
    | true =>
      simp only [if_true, wp_pure]
      exact ⟨hkept, hsame, ptrIn_static buf, hok rfl⟩
    | false =>
      simp only [Bool.false_eq_true, if_false, wp_fail]
      exact fun hsound => hno hsound rfl
  · exact (wp_pure _).mpr ⟨Kept.refl s, sameBut_refl s _, (ptrIn_text x).mono (by simp), rfl⟩

/-- `base_name`. -/
theorem wp_baseName {dir : Ptr} {Q : Post Failure Machine Event (Option Ptr)}
    (hnone : baseNameOf (dir.read s.statics) = none → Q.done none h s)
    (hsome : ∀ base, baseNameOf (dir.read s.statics) = some base →
      Q.done (some (.static .baseNamePathBuf)) h (stored s .baseNamePathBuf base)) :
    wp host n id (baseName dir) Q h s := by
  simp only [baseName, wp_bind, wp_load]
  rcases hbase : baseNameOf (dir.read s.statics) with _ | base
  · simpa using hnone hbase
  · simpa only [wp_bind, wp_store, wp_pure] using hsome base hbase

@[simp] theorem read_text (statics : Static → CString) (x : CString) :
    (Ptr.text x).read statics = x := rfl

/-- Put a formatted string into a static buffer, or fail. -/
theorem wp_format {α : Type} {o : Option CString} {b : Static} {k : Proc α} {failed : Proc α}
    {Q : Post Failure Machine Event α} (hnone : o = none → wp host n id failed Q h s)
    (hsome : ∀ path, o = some path → wp host n id k Q h (stored s b path)) :
    wp host n id (match o with
      | some path => do
        store b path
        k
      | _ => failed) Q h s := by
  rcases o with _ | path
  · exact hnone rfl
  · simpa only [wp_bind, wp_store] using hsome path rfl

theorem wp_ntranCopy (hwhole : ∀ k, host.chunk k = none) (item : InstallItem CString) :
    wp host n id (ntranCopy (loaded item)) (itemPost host s [.copySrcName, .copyDstTmp]
      (copyNames (wordIn s.fs s.cwd) item)) h s := by
  obtain ⟨op, src, dst, dir, owner, group, perm⟩ := item
  rcases src with _ | src
  · simp [ntranCopy, loaded, wp_fail, itemPost, copyNames]
  rcases dir with _ | dir
  · simp [ntranCopy, loaded, wp_fail, itemPost, copyNames]
  have hdst : (dst.map Ptr.text).getD (.text src) = .text (dst.getD src) := by cases dst <;> rfl
  simp only [ntranCopy, loaded, Option.map_some, hdst, wp_bind]
  refine wp_mono (wp_libraryName hwhole _ .copySrcName) ?_ ?_ ?_
  · rintro p h₁ t ⟨hkept, -, hp, hlib⟩
    refine wp_mono (wp_libraryName hwhole _ .copyDstName) ?_ ?_ ?_
    · rintro q h₂ u ⟨hkept', hsame, -, hlib'⟩
      rw [hkept.fs, hkept.cwd] at hlib'
      refine wp_baseName (fun hno => ?_) fun base hbase => ?_
      · simp [wp_fail, itemPost, copyNames, hlib', hno]
      · simp only [wp_bind, wp_load]
        refine wp_format (fun hno => ?_) fun path hpath => ?_
        · have hno : snprintf maxPathLen (joined dir base) = none := by simpa [Ptr.read] using hno
          simp [wp_fail, itemPost, copyNames, hlib', hbase, hno]
        · have hpath : snprintf maxPathLen (joined dir base) = some path := by
            simpa [Ptr.read] using hpath
          rw [wp_pure]
          set v := stored (stored u .baseNamePathBuf base) .copyDstTmp path with hv
          have hsrc : p.read v.statics = p.read t.statics :=
            ((hsame.trans (sameBut_stored u .baseNamePathBuf base)).trans
              (sameBut_stored _ .copyDstTmp path)).read hp (by decide)
          have hdsts : (Ptr.static .copyDstTmp).read v.statics = path := stored_statics _ _ _
          refine ⟨hkept.trans (hkept'.trans ((kept_stored _ _ _).trans (kept_stored _ _ _))),
            ⟨?_, ?_, ?_⟩, ?_⟩
          · rintro _ ⟨rfl⟩; exact hp.mono (by decide)
          · rintro _ ⟨rfl⟩; exact (ptrIn_static _).mono (by decide)
          · rintro _ ⟨rfl⟩; exact (ptrIn_text dir).mono (by decide)
          · simp [copyNames, hlib, hlib', hbase, hpath, reading, hsrc, hdsts]
    · intro e h₂ u hno hsound
      rw [hkept.fs, hkept.cwd] at hno
      simp [copyNames, hno hsound]
    · intro h₂ hno hsound
      rw [hkept.fs, hkept.cwd] at hno
      simp [copyNames, hno hsound]
  · intro e h₁ t hno hsound
    simp [copyNames, hno hsound]
  · intro h₁ hno hsound
    simp [copyNames, hno hsound]

/-- The names of a copy are there. -/
theorem copyNames_some {word : CString → Option CString} {item item' : InstallItem CString}
    (h : copyNames word item = some item') :
    ∃ src dst, item'.src = some src ∧ item'.dst = some dst := by
  unfold copyNames at h
  simp only [Option.bind_eq_bind, Option.bind_eq_some_iff, Option.pure_def,
    Option.some.injEq] at h
  obtain ⟨src, -, dir, -, lib, -, dst, -, base, -, path, -, rfl⟩ := h
  exact ⟨lib, path, rfl, rfl⟩

theorem reading_some {statics : Static → CString} {o : Option Ptr} {x : CString}
    (h : o.map (Ptr.read statics) = some x) : ∃ p, o = some p ∧ p.read statics = x := by
  simpa using h

theorem wp_ntranCopyExec (hwhole : ∀ k, host.chunk k = none) (item : InstallItem CString) :
    wp host n id (ntranCopyExec (loaded item)) (itemPost host s
      [.copySrcName, .copyDstTmp, .execSrcName, .execDstName]
      ((copyNames (wordIn s.fs s.cwd) item).bind (execNames s.execSuffix))) h s := by
  rw [ntranCopyExec, wp_bind]
  refine wp_mono (wp_ntranCopy hwhole item) ?_ ?_ ?_
  · rintro ins h₁ t ⟨hkept, hpoint, hnames⟩
    obtain ⟨src, dst, hsrc, hdst⟩ := copyNames_some hnames
    obtain ⟨p, hp, rfl⟩ := reading_some hsrc
    obtain ⟨q, hq, rfl⟩ := reading_some hdst
    rw [hnames, Option.bind_some]
    have hsuffix := hkept.execSuffix
    simp only [wp_bind, wp_get, hp, hq, wp_deref_some]
    refine wp_format (fun hno => ?_) fun path hpath => ?_
    · simp [wp_fail, itemPost, execNames, reading, hp, ← hsuffix, hno]
    · simp only [wp_bind, wp_deref_some]
      set u := stored t .execSrcName path with hu
      have hqu : q.read u.statics = q.read t.statics :=
        (sameBut_stored t .execSrcName path).read (hpoint.dst q hq) (by decide)
      refine wp_format (fun hno => ?_) fun path' hpath' => ?_
      · rw [hqu] at hno
        simp [wp_fail, itemPost, execNames, reading, hp, hq, ← hsuffix, hno]
      · rw [hqu] at hpath'
        rw [wp_pure]
        set v := stored u .execDstName path' with hv
        have hsrcs : (Ptr.static .execSrcName).read v.statics = path :=
          (stored_statics_of_ne (by decide) _).trans (stored_statics _ _ _)
        have hdsts : (Ptr.static .execDstName).read v.statics = path' := stored_statics _ _ _
        have hdirs : ins.dir.map (Ptr.read v.statics) = ins.dir.map (Ptr.read t.statics) := by
          have hsame := (sameBut_stored t .execSrcName path).trans
            (sameBut_stored u .execDstName path')
          have := congrArg InstallItem.dir (hsame.reading hpoint (by decide))
          exact this
        refine ⟨hkept.trans ((kept_stored _ _ _).trans (kept_stored _ _ _)), ⟨?_, ?_, ?_⟩, ?_⟩
        · rintro _ ⟨rfl⟩; exact (ptrIn_static _).mono (by decide)
        · rintro _ ⟨rfl⟩; exact (ptrIn_static _).mono (by decide)
        · intro r hr; exact (hpoint.dir r hr).mono (by decide)
        · simp [execNames, reading, hp, hq, ← hsuffix, hpath, hpath', hsrcs, hdsts, hdirs]
  · intro e h₁ t hno hsound
    rw [hno hsound, Option.bind_none]
  · intro h₁ hno hsound
    rw [hno hsound, Option.bind_none]

theorem wp_ntranLink (item : InstallItem CString) :
    wp host n id (ntranLink (loaded item)) (itemPost host s [] (linkNames item)) h s := by
  obtain ⟨op, src, dst, dir, owner, group, perm⟩ := item
  rcases src with _ | src
  · simp [ntranLink, loaded, wp_fail, itemPost, linkNames]
  rcases dir with _ | dir
  · simp [ntranLink, loaded, wp_fail, itemPost, linkNames]
  rcases dst with _ | dst
  · simp [ntranLink, loaded, wp_fail, itemPost, linkNames]
  simp only [ntranLink, loaded, Option.map_some]
  refine (wp_pure _).mpr ⟨Kept.refl s, ⟨?_, ?_, ?_⟩, by simp [linkNames, reading]⟩
  · rintro _ ⟨rfl⟩; exact ptrIn_text src
  · rintro _ ⟨rfl⟩; exact ptrIn_text dst
  · rintro _ ⟨rfl⟩; exact ptrIn_text dir

/-- A name, or the base name of the library name in the file of that name. -/
theorem wp_libraryBaseName (hwhole : ∀ k, host.chunk k = none) (x : CString) :
    wp host n id (libraryBaseName (.text x))
      (ptrPost host s [.liblinkSrcTmp, .baseNamePathBuf, .liblinkSrcName] [.liblinkSrcName]
        (libraryBase (wordIn s.fs s.cwd) x)) h s := by
  simp only [libraryBaseName, wp_bind, wp_load]
  unfold libraryBase
  change wp host n id (if isLibrary x = true then _ else _) _ h s
  split_ifs
  · simp only [wp_bind, wp_load]
    refine wp_mono (wp_libname hwhole x .liblinkSrcTmp) ?_ (fun _ _ _ he => absurd he id) ?_
    · rintro ok h₁ t ⟨hkept, hsame, hok, hno⟩
      cases ok with
      | false =>
        simp only [Bool.false_eq_true, if_false, wp_fail]
        intro hsound
        have hword : wordIn s.fs s.cwd x = none := hno hsound rfl
        exact congrArg (fun o => Option.bind o baseNameOf) hword
      | true =>
        have hword : wordIn s.fs s.cwd x = some (t.statics .liblinkSrcTmp) := hok rfl
        simp only [if_true, wp_bind]
        refine wp_baseName (fun hbase => ?_) fun base hbase => ?_
        · simp only [wp_fail]
          intro _
          rw [Ptr.read] at hbase
          rw [hword, Option.bind_some, hbase]
        · simp only [wp_bind, wp_load, wp_store, wp_pure]
          set u := stored t .baseNamePathBuf base with hu
          set v := stored u .liblinkSrcName ((Ptr.static .baseNamePathBuf).read u.statics) with hv
          have hread : (Ptr.static .liblinkSrcName).read v.statics = base :=
            (stored_statics _ _ _).trans (stored_statics _ _ _)
          refine ⟨hkept.trans ((kept_stored _ _ _).trans (kept_stored _ _ _)), ?_,
            (ptrIn_static _).mono (by decide), ?_⟩
          · exact (hsame.trans (sameBut_stored t .baseNamePathBuf base)).trans
              (sameBut_stored u .liblinkSrcName _)
          · rw [hread]
            rw [hword, Option.bind_some]
            exact hbase
    · intro h₁ hno _
      exact congrArg (fun o => Option.bind o baseNameOf) hno
  · exact (wp_pure _).mpr ⟨Kept.refl s, sameBut_refl s _, (ptrIn_text x).mono (by simp), rfl⟩

theorem wp_ntranLiblink (hwhole : ∀ k, host.chunk k = none) (item : InstallItem CString) :
    wp host n id (ntranLiblink (loaded item)) (itemPost host s
      [.liblinkSrcName, .liblinkDstTmp] (liblinkNames (wordIn s.fs s.cwd) s.dlibSuffix item)) h s := by
  obtain ⟨op, src, dst, dir, owner, group, perm⟩ := item
  rcases src with _ | src
  · simp [ntranLiblink, loaded, wp_fail, itemPost, liblinkNames]
  rcases dir with _ | dir
  · simp [ntranLiblink, loaded, wp_fail, itemPost, liblinkNames]
  rcases dst with _ | dst
  · simp [ntranLiblink, loaded, wp_fail, itemPost, liblinkNames]
  simp only [ntranLiblink, loaded, Option.map_some, wp_bind]
  refine wp_mono (wp_libraryBaseName hwhole src) ?_ ?_ ?_
  · rintro p h₁ t ⟨hkept, -, hp, hlib⟩
    have hsuffix := hkept.dlibSuffix
    refine wp_baseName (fun hno => ?_) fun base hbase => ?_
    · have hno : baseNameOf dst = none := hno
      simp [wp_fail, itemPost, liblinkNames, hno]
    · have hbase : baseNameOf dst = some base := hbase
      simp only [wp_bind, wp_load, wp_get]
      refine wp_format (fun hno => ?_) fun name hname => ?_
      · have hno : snprintf maxPathLen (base ++ s.dlibSuffix) = none := by
          simpa [Ptr.read, stored, hsuffix] using hno
        simp [wp_fail, itemPost, liblinkNames, hbase, hno]
      · have hname : snprintf maxPathLen (base ++ s.dlibSuffix) = some name := by
          simpa [Ptr.read, stored, hsuffix] using hname
        rw [wp_pure]
        set v := stored (stored t .baseNamePathBuf base) .liblinkDstTmp name with hv
        have hsrc : p.read v.statics = p.read t.statics :=
          ((sameBut_stored t .baseNamePathBuf base).trans
            (sameBut_stored _ .liblinkDstTmp name)).read hp (by decide)
        have hdst : (Ptr.static .liblinkDstTmp).read v.statics = name := stored_statics _ _ _
        refine ⟨hkept.trans ((kept_stored _ _ _).trans (kept_stored _ _ _)), ⟨?_, ?_, ?_⟩, ?_⟩
        · rintro _ ⟨rfl⟩; exact hp.mono (by decide)
        · rintro _ ⟨rfl⟩; exact (ptrIn_static _).mono (by decide)
        · rintro _ ⟨rfl⟩; exact (ptrIn_text dir).mono (by decide)
        · simp [liblinkNames, hlib, hbase, hname, reading, hsrc, hdst]
  · intro e h₁ t hno hsound
    simp [liblinkNames, hno hsound]
  · intro h₁ hno hsound
    simp [liblinkNames, hno hsound]

theorem wp_ntranMkdir (item : InstallItem CString) :
    wp host n id (ntranMkdir (loaded item)) (itemPost host s [] (some (mkdirNames item))) h s := by
  obtain ⟨op, src, dst, dir, owner, group, perm⟩ := item
  rw [ntranMkdir, wp_pure]
  refine ⟨Kept.refl s, ⟨?_, ?_, ?_⟩, ?_⟩
  · intro p hp b hb
    cases src <;> simp_all [loaded]
  · intro p hp b hb
    cases src <;> cases dst <;> simp_all [loaded]
  · intro p hp b hb
    cases dir <;> simp_all [loaded]
  · cases src <;> cases dst <;> cases dir <;> rfl

/-- The names of a link are there. -/
theorem linkNames_some {item item' : InstallItem CString} (h : linkNames item = some item') :
    ∃ dir dst, item'.dir = some dir ∧ item'.dst = some dst := by
  unfold linkNames at h
  simp only [Option.bind_eq_bind, Option.bind_eq_some_iff, Option.pure_def,
    Option.some.injEq] at h
  obtain ⟨-, -, dir, hdir, dst, hdst, rfl⟩ := h
  exact ⟨dir, dst, hdir, hdst⟩

theorem liblinkNames_some {word : CString → Option CString} {suffix : CString}
    {item item' : InstallItem CString} (h : liblinkNames word suffix item = some item') :
    ∃ dir dst, item'.dir = some dir ∧ item'.dst = some dst := by
  unfold liblinkNames at h
  simp only [Option.bind_eq_bind, Option.bind_eq_some_iff, Option.pure_def,
    Option.some.injEq] at h
  obtain ⟨src, -, dir, hdir, dst, -, lib, -, base, -, name, -, rfl⟩ := h
  exact ⟨dir, name, hdir, rfl⟩

/-- The directory is put in front of the name. -/
theorem wp_ntranInDir {bufs : List Static} {s₀ t : Machine} {ins : InstallItem Ptr}
    {item : InstallItem CString} {b : Static} (hkept : Kept s₀ t) (hpoint : Pointing bufs ins)
    (hb : b ∉ bufs) (hread : item = reading t.statics ins)
    (hnames : ∃ dir dst, item.dir = some dir ∧ item.dst = some dst) :
    wp host n id (ntranInDir ins b) (itemPost host s₀ (b :: bufs) (inDirNames item)) h t := by
  obtain ⟨dir, dst, hdir, hdst⟩ := hnames
  subst hread
  obtain ⟨p, hp, rfl⟩ := reading_some hdir
  obtain ⟨q, hq, rfl⟩ := reading_some hdst
  simp only [ntranInDir, wp_bind, hp, hq, wp_deref_some]
  refine wp_format (fun hno => ?_) fun path hpath => ?_
  · simp [wp_fail, itemPost, inDirNames, reading, hp, hq, hno]
  · rw [wp_pure]
    set u := stored t b path with hu
    have hsame : reading u.statics ins = reading t.statics ins :=
      (sameBut_stored t b path).reading hpoint fun c hc hcb => hb (by simp_all)
    have hsrc : ins.src.map (Ptr.read u.statics) = ins.src.map (Ptr.read t.statics) :=
      congrArg InstallItem.src hsame
    have hpu : p.read u.statics = p.read t.statics := by
      simpa [reading, hp] using congrArg InstallItem.dir hsame
    have hdsts : (Ptr.static b).read u.statics = path := stored_statics _ _ _
    refine ⟨hkept.trans (kept_stored _ _ _), ⟨?_, ?_, ?_⟩, ?_⟩
    · intro r hr; exact (hpoint.src r hr).mono fun c hc => List.mem_cons_of_mem _ hc
    · rintro _ ⟨rfl⟩; exact (ptrIn_static b).mono (by simp)
    · rintro _ ⟨rfl⟩; exact (hpoint.dir p hp).mono fun c hc => List.mem_cons_of_mem _ hc
    · simp [inDirNames, reading, hp, hq, hpath, hsrc, hdsts, hpu]

theorem wp_ntranChkLink (item : InstallItem CString) :
    wp host n id (ntranChkLink (loaded item)) (itemPost host s [.chkLinkDstName]
      ((linkNames item).bind inDirNames)) h s := by
  rw [ntranChkLink, wp_bind]
  refine wp_mono (wp_ntranLink item) ?_ ?_ ?_
  · rintro ins h₁ t ⟨hkept, hpoint, hnames⟩
    rw [hnames, Option.bind_some]
    exact wp_ntranInDir hkept hpoint (by decide) rfl (linkNames_some hnames)
  · intro e h₁ t hno hsound
    rw [hno hsound, Option.bind_none]
  · intro h₁ hno hsound
    rw [hno hsound, Option.bind_none]

theorem wp_ntranChkLiblink (hwhole : ∀ k, host.chunk k = none) (item : InstallItem CString) :
    wp host n id (ntranChkLiblink (loaded item)) (itemPost host s
      [.chkLiblinkDstName, .liblinkSrcName, .liblinkDstTmp]
      ((liblinkNames (wordIn s.fs s.cwd) s.dlibSuffix item).bind inDirNames)) h s := by
  rw [ntranChkLiblink, wp_bind]
  refine wp_mono (wp_ntranLiblink hwhole item) ?_ ?_ ?_
  · rintro ins h₁ t ⟨hkept, hpoint, hnames⟩
    rw [hnames, Option.bind_some]
    exact wp_ntranInDir hkept hpoint (by decide) rfl (liblinkNames_some hnames)
  · intro e h₁ t hno hsound
    rw [hno hsound, Option.bind_none]
  · intro h₁ hno hsound
    rw [hno hsound, Option.bind_none]

end LuaAdaLoad.Install.TranslatedNames
