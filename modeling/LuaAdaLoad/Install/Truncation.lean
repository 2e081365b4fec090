import LuaAdaLoad.Install.BaseNames
import LuaAdaLoad.Install.TranslatedNames

/-!
# Truncated paths

Five translators build a destination path in buffers of `INSTALL_MAX_PATHLEN` bytes. `snprintf` cuts
what does not fit and reports no error, and the translators look for an error only. So a translator
that succeeds leaves the path that is meant (`meant`) just if that one fits the buffer.
-/

namespace LuaAdaLoad.Install.Truncation

open LuaAdaLoad.Control.Actions LuaAdaLoad.Control.Weakest LuaAdaLoad.System.Paths
open LuaAdaLoad.System.FileSystem LuaAdaLoad.Install.Posix LuaAdaLoad.Install.Translation
open LuaAdaLoad.Install.Calls LuaAdaLoad.Install.BaseNames LuaAdaLoad.Install.TranslatedNames

/-- The translators that build a path. -/
inductive Builder where
  | ntranCopy
  | ntranCopyExec
  | ntranChkLink
  | ntranLiblink
  | ntranChkLiblink
deriving DecidableEq

def Builder.trans : Builder → InstallItem Ptr → Proc (InstallItem Ptr)
  | .ntranCopy => Translation.ntranCopy
  | .ntranCopyExec => Translation.ntranCopyExec
  | .ntranChkLink => Translation.ntranChkLink
  | .ntranLiblink => Translation.ntranLiblink
  | .ntranChkLiblink => Translation.ntranChkLiblink

/-- What a translator computes, on strings. -/
def Builder.names (s : Machine) (item : InstallItem CString) :
    Builder → Option (InstallItem CString)
  | .ntranCopy => copyNames (wordIn s.fs s.cwd) item
  | .ntranCopyExec => (copyNames (wordIn s.fs s.cwd) item).bind (execNames s.execSuffix)
  | .ntranChkLink => (linkNames item).bind inDirNames
  | .ntranLiblink => liblinkNames (wordIn s.fs s.cwd) s.dlibSuffix item
  | .ntranChkLiblink =>
    (liblinkNames (wordIn s.fs s.cwd) s.dlibSuffix item).bind inDirNames

variable {host : Host} {n : ℕ} {h : List Event} {s : Machine} {item item' : InstallItem CString}

theorem wp_trans (hwhole : ∀ k, host.chunk k = none) (b : Builder) (item : InstallItem CString) :
    ∃ bufs, wp host n id (b.trans (loaded item)) (itemPost host s bufs (b.names s item)) h s := by
  cases b with
  | ntranCopy => exact ⟨_, wp_ntranCopy hwhole item⟩
  | ntranCopyExec => exact ⟨_, wp_ntranCopyExec hwhole item⟩
  | ntranChkLink => exact ⟨_, wp_ntranChkLink item⟩
  | ntranLiblink => exact ⟨_, wp_ntranLiblink hwhole item⟩
  | ntranChkLiblink => exact ⟨_, wp_ntranChkLiblink hwhole item⟩

/-! ### What is meant, and what is built -/

/-- The source name, or the library name that takes its place. -/
def Builder.source (s : Machine) (item : InstallItem CString) : Builder → Option CString
  | .ntranCopy | .ntranCopyExec => item.src.bind (libraryOr (wordIn s.fs s.cwd))
  | .ntranChkLink => item.src
  | .ntranLiblink | .ntranChkLiblink => item.src.bind (libraryBase (wordIn s.fs s.cwd))

/-- The destination name, or the library name that takes its place. -/
def Builder.target (s : Machine) (item : InstallItem CString) : Builder → Option CString
  | .ntranCopy | .ntranCopyExec => (item.dst <|> item.src).bind (libraryOr (wordIn s.fs s.cwd))
  | .ntranChkLink | .ntranLiblink | .ntranChkLiblink => item.dst

/-- The destination path with that base name, of any length. -/
def Builder.path (s : Machine) (dir base : CString) : Builder → CString
  | .ntranCopy | .ntranChkLink => joined dir base
  | .ntranCopyExec => joined dir base ++ s.execSuffix
  | .ntranLiblink => base ++ s.dlibSuffix
  | .ntranChkLiblink => joined dir (base ++ s.dlibSuffix)

/-- The part of a text that fits a buffer. -/
def cut (text : CString) : CString := text.take (maxPathLen - 1)

/-- The destination path as it is built, in one or two buffers. -/
def Builder.cutPath (s : Machine) (dir base : CString) : Builder → CString
  | .ntranCopy | .ntranChkLink => cut (joined dir base)
  | .ntranCopyExec => cut (cut (joined dir base) ++ s.execSuffix)
  | .ntranLiblink => cut (base ++ s.dlibSuffix)
  | .ntranChkLiblink => cut (joined dir (cut (base ++ s.dlibSuffix)))

/-- The base name that is meant; the check of a link takes the whole name. -/
def Builder.meantBase (name : CString) : Builder → CString
  | .ntranChkLink => name
  | _ => posixBase name

/-- The base name that is taken. -/
def Builder.takenBase (name : CString) : Builder → Option CString
  | .ntranChkLink => some name
  | _ => baseNameOf name

/-- The path that is meant, of any length. -/
def Builder.meant (s : Machine) (item : InstallItem CString) (b : Builder) : CString :=
  b.path s (item.dir.getD []) (b.meantBase ((b.target s item).getD []))

/-- The texts that are put together. -/
def Builder.texts (s : Machine) (item : InstallItem CString) (base : CString) (b : Builder) :
    List CString :=
  let dir := item.dir.getD []
  match b with
  | .ntranCopy | .ntranChkLink => [joined dir base]
  | .ntranCopyExec => [joined dir base, (b.source s item).getD [] ++ s.execSuffix,
      cut (joined dir base) ++ s.execSuffix]
  | .ntranLiblink => [base ++ s.dlibSuffix]
  | .ntranChkLiblink => [base ++ s.dlibSuffix, joined dir (cut (base ++ s.dlibSuffix))]

/-- The item is accepted: no name is missing, the library names are there, `base_name` finds a base
name, and no text is too long for `snprintf`. -/
structure Builder.Accepts (s : Machine) (item : InstallItem CString) (b : Builder)
    (name base : CString) : Prop where
  dir : item.dir ≠ none
  source : b.source s item ≠ none
  target : b.target s item = some name
  found : b.takenBase name = some base
  texts : ∀ text ∈ b.texts s item base, text.length < 2 ^ 31

theorem snprintf_eq (text : CString) : snprintf maxPathLen text =
    if text.length < 2 ^ 31 then some (cut text) else none := rfl

theorem snprintf_some {text out : CString} (h : snprintf maxPathLen text = some out) :
    text.length < 2 ^ 31 ∧ out = cut text := by
  rw [snprintf_eq] at h
  split_ifs at h with hlen
  exact ⟨hlen, (Option.some.inj h).symm⟩

theorem snprintf_of_lt {text : CString} (h : text.length < 2 ^ 31) :
    snprintf maxPathLen text = some (cut text) := by
  rw [snprintf_eq, if_pos h]

/-- A translator that succeeds has accepted the item, and builds the path. -/
theorem accepts_of_names (b : Builder) (h : b.names s item = some item') :
    ∃ name base, b.Accepts s item name base ∧
      item'.dst = some (b.cutPath s (item.dir.getD []) base) := by
  obtain ⟨op, src, dst, dir, owner, group, perm⟩ := item
  cases b with
  | ntranCopy =>
    simp only [Builder.names, copyNames, Option.bind_eq_bind, Option.bind_eq_some_iff,
      Option.pure_def, Option.some.injEq] at h
    obtain ⟨src', rfl, dir', rfl, lib, hlib, name, hname, base, hbase, path, hpath, rfl⟩ := h
    obtain ⟨hlen, rfl⟩ := snprintf_some hpath
    refine ⟨name, base, ⟨by simp, by simp [Builder.source, hlib], ?_, hbase, ?_⟩, rfl⟩
    · cases dst <;> exact hname
    · simpa [Builder.texts] using hlen
  | ntranCopyExec =>
    simp only [Builder.names, copyNames, execNames, Option.bind_eq_bind, Option.bind_eq_some_iff,
      Option.pure_def, Option.some.injEq] at h
    obtain ⟨_, ⟨src', rfl, dir', rfl, lib, hlib, name, hname, base, hbase, path, hpath, rfl⟩,
      path', hpath', path'', hpath'', rfl⟩ := h
    obtain ⟨hlen, rfl⟩ := snprintf_some hpath
    obtain ⟨hlen', rfl⟩ := snprintf_some hpath'
    obtain ⟨hlen'', rfl⟩ := snprintf_some hpath''
    refine ⟨name, base, ⟨by simp, by simp [Builder.source, hlib], ?_, hbase, ?_⟩, rfl⟩
    · cases dst <;> exact hname
    · simp only [Builder.texts, Builder.source, Option.bind_some, hlib, Option.getD_some,
        List.forall_mem_cons]
      exact ⟨hlen, hlen', hlen'', by simp⟩
  | ntranChkLink =>
    simp only [Builder.names, linkNames, inDirNames, Option.bind_eq_bind, Option.bind_eq_some_iff,
      Option.pure_def, Option.some.injEq] at h
    obtain ⟨_, ⟨src', rfl, dir', rfl, dst', rfl, rfl⟩, path, hpath, rfl⟩ := h
    obtain ⟨hlen, rfl⟩ := snprintf_some hpath
    refine ⟨dst', dst', ⟨by simp, by simp [Builder.source], rfl, rfl, ?_⟩, rfl⟩
    simpa [Builder.texts] using hlen
  | ntranLiblink =>
    simp only [Builder.names, liblinkNames, Option.bind_eq_bind, Option.bind_eq_some_iff,
      Option.pure_def, Option.some.injEq] at h
    obtain ⟨src', rfl, dir', rfl, dst', rfl, lib, hlib, base, hbase, path, hpath, rfl⟩ := h
    obtain ⟨hlen, rfl⟩ := snprintf_some hpath
    refine ⟨dst', base, ⟨by simp, by simp [Builder.source, hlib], rfl, hbase, ?_⟩, rfl⟩
    simpa [Builder.texts] using hlen
  | ntranChkLiblink =>
    simp only [Builder.names, liblinkNames, inDirNames, Option.bind_eq_bind,
      Option.bind_eq_some_iff, Option.pure_def, Option.some.injEq] at h
    obtain ⟨_, ⟨src', rfl, dir', rfl, dst', rfl, lib, hlib, base, hbase, path, hpath, rfl⟩,
      path', hpath', rfl⟩ := h
    obtain ⟨hlen, rfl⟩ := snprintf_some hpath
    obtain ⟨hlen', rfl⟩ := snprintf_some hpath'
    refine ⟨dst', base, ⟨by simp, by simp [Builder.source, hlib], rfl, hbase, ?_⟩, rfl⟩
    simp only [Builder.texts, List.forall_mem_cons]
    exact ⟨hlen, hlen', by simp⟩

/-- A translator succeeds with an item that it accepts. -/
theorem names_of_accepts {b : Builder} {name base : CString} (h : b.Accepts s item name base) :
    ∃ item', b.names s item = some item' := by
  obtain ⟨op, src, dst, dir, owner, group, perm⟩ := item
  obtain ⟨hdir, hsource, htarget, hbase, htexts⟩ := h
  obtain ⟨dir, rfl⟩ := Option.ne_none_iff_exists'.mp hdir
  obtain ⟨lib, hsome⟩ := Option.ne_none_iff_exists'.mp hsource
  cases b with
  | ntranCopy =>
    obtain ⟨src, rfl, hlib⟩ := Option.bind_eq_some_iff.mp hsome
    have hname : libraryOr (wordIn s.fs s.cwd) (dst.getD src) = some name := by
      cases dst <;> exact htarget
    have hlen : (joined dir base).length < 2 ^ 31 := htexts _ (by simp [Builder.texts])
    have hbase : baseNameOf name = some base := hbase
    simp [Builder.names, copyNames, hlib, hname, hbase, snprintf_of_lt hlen]
  | ntranCopyExec =>
    have hsuffix := htexts (lib ++ s.execSuffix) (by simp [Builder.texts, hsome])
    obtain ⟨src, rfl, hlib⟩ := Option.bind_eq_some_iff.mp hsome
    have hname : libraryOr (wordIn s.fs s.cwd) (dst.getD src) = some name := by
      cases dst <;> exact htarget
    have hlen : (joined dir base).length < 2 ^ 31 := htexts _ (by simp [Builder.texts])
    have hlen' : (cut (joined dir base) ++ s.execSuffix).length < 2 ^ 31 :=
      htexts _ (by simp [Builder.texts])
    have hbase : baseNameOf name = some base := hbase
    simp [Builder.names, copyNames, execNames, hlib, hname, hbase, snprintf_of_lt hlen,
      snprintf_of_lt hsuffix, snprintf_of_lt hlen']
  | ntranChkLink =>
    obtain rfl : src = some lib := hsome
    obtain rfl : dst = some name := htarget
    obtain rfl : name = base := Option.some.inj hbase
    have hlen : (joined dir name).length < 2 ^ 31 := htexts _ (by simp [Builder.texts])
    simp [Builder.names, linkNames, inDirNames, snprintf_of_lt hlen]
  | ntranLiblink =>
    obtain ⟨src, rfl, hlib⟩ := Option.bind_eq_some_iff.mp hsome
    obtain rfl : dst = some name := htarget
    have hlen : (base ++ s.dlibSuffix).length < 2 ^ 31 := htexts _ (by simp [Builder.texts])
    have hbase : baseNameOf name = some base := hbase
    simp [Builder.names, liblinkNames, hlib, hbase, snprintf_of_lt hlen]
  | ntranChkLiblink =>
    obtain ⟨src, rfl, hlib⟩ := Option.bind_eq_some_iff.mp hsome
    obtain rfl : dst = some name := htarget
    have hlen : (base ++ s.dlibSuffix).length < 2 ^ 31 := htexts _ (by simp [Builder.texts])
    have hlen' : (joined dir (cut (base ++ s.dlibSuffix))).length < 2 ^ 31 :=
      htexts _ (by simp [Builder.texts])
    have hbase : baseNameOf name = some base := hbase
    simp [Builder.names, liblinkNames, inDirNames, hlib, hbase, snprintf_of_lt hlen,
      snprintf_of_lt hlen']

/-! ### Paths that fit -/

/-- A cut text is the text just if it fits. -/
theorem cut_eq_self_iff {text : CString} : cut text = text ↔ text.length < maxPathLen := by
  rw [cut, List.take_eq_self_iff]
  simp only [maxPathLen]
  omega

theorem length_cut_lt (text : CString) : (cut text).length < maxPathLen := by
  rw [cut, List.length_take]
  simp only [maxPathLen]
  omega

/-- **The path that is built is the whole path** just if the whole path fits. -/
theorem cutPath_eq_iff (b : Builder) {dir base : CString} :
    b.cutPath s dir base = b.path s dir base ↔ (b.path s dir base).length < maxPathLen := by
  cases b with
  | ntranCopy => exact cut_eq_self_iff
  | ntranChkLink => exact cut_eq_self_iff
  | ntranLiblink => exact cut_eq_self_iff
  | ntranCopyExec =>
    constructor
    · intro h
      rw [← h]
      exact length_cut_lt _
    · intro h
      have hjoined : cut (joined dir base) = joined dir base := by
        rw [Builder.path, List.length_append] at h
        exact cut_eq_self_iff.mpr (by omega)
      rw [Builder.cutPath, hjoined]
      exact cut_eq_self_iff.mpr h
  | ntranChkLiblink =>
    constructor
    · intro h
      rw [← h]
      exact length_cut_lt _
    · intro h
      have hname : cut (base ++ s.dlibSuffix) = base ++ s.dlibSuffix := by
        simp only [Builder.path, joined, List.length_append, List.length_cons] at h
        refine cut_eq_self_iff.mpr ?_
        rw [List.length_append]
        omega
      rw [Builder.cutPath, hname]
      exact cut_eq_self_iff.mpr h

/-- In a name of less than `2 ^ 32` characters the base name that is taken is the one that is
meant. -/
theorem takenBase_eq {b : Builder} {name base : CString} (h : b.takenBase name = some base)
    (hlen : b = .ntranChkLink ∨ name.length < 2 ^ 32) : base = b.meantBase name := by
  cases b with
  | ntranChkLink => exact (Option.some.inj h).symm
  | ntranCopy => exact baseNameOf_eq (hlen.resolve_left (by decide)) h
  | ntranCopyExec => exact baseNameOf_eq (hlen.resolve_left (by decide)) h
  | ntranLiblink => exact baseNameOf_eq (hlen.resolve_left (by decide)) h
  | ntranChkLiblink => exact baseNameOf_eq (hlen.resolve_left (by decide)) h

/-- If the item is accepted, the path that is meant fits. Of a name of `2 ^ 32` characters or more
`base_name` sees a part; then the path built from the base name of that part has to be the path that
is meant. -/
def Builder.Fits (s : Machine) (item : InstallItem CString) (b : Builder) : Prop :=
  ∀ name base, b.Accepts s item name base →
    if b = .ntranChkLink ∨ name.length < 2 ^ 32 then (b.meant s item).length < maxPathLen
    else b.cutPath s (item.dir.getD []) base = b.meant s item

theorem fits_iff (b : Builder) : b.Fits s item ↔ ∀ name base, b.Accepts s item name base →
    b.cutPath s (item.dir.getD []) base = b.meant s item := by
  refine forall_congr' fun name => forall_congr' fun base => imp_congr_right fun haccept => ?_
  split_ifs with hlen
  · have hmeant : b.meant s item = b.path s (item.dir.getD []) base := by
      rw [Builder.meant, haccept.target, takenBase_eq haccept.found hlen]
      rfl
    rw [hmeant, cutPath_eq_iff]
  · exact Iff.rfl

/-- Where nothing fails, a translator succeeds with an item that it accepts. -/
theorem done_of_accepts {b : Builder} {name base : CString} (hsound : host.Sound) (n : ℕ)
    (haccept : b.Accepts s item name base) :
    ∃ ins t, (b.trans (loaded item) host n s).ending = .done ins t ∧
      (reading t.statics ins).dst = some (b.cutPath s (item.dir.getD []) base) := by
  obtain ⟨bufs, hwp⟩ := wp_trans (n := n) (h := []) (s := s) hsound.chunk b item
  obtain ⟨item', hsome⟩ := names_of_accepts haccept
  unfold wp at hwp
  rcases hend : (b.trans (loaded item) host n s).ending with ⟨ins, t⟩ | ⟨e, t⟩ | _ | _ <;>
    rw [hend] at hwp
  · obtain ⟨-, -, hnames⟩ := hwp
    obtain ⟨name', base', haccept', hdst⟩ := accepts_of_names b hnames
    obtain rfl : name = name' := Option.some.inj (haccept.target.symm.trans haccept'.target)
    obtain rfl : base = base' := Option.some.inj (haccept.found.symm.trans haccept'.found)
    exact ⟨ins, t, rfl, hdst⟩
  · exact absurd (hsome.symm.trans (hwp hsound)) (by simp)
  · exact absurd (hsome.symm.trans (hwp hsound)) (by simp)
  · exact absurd (hsome.symm.trans (hwp hsound)) (by simp)

/-- A translator that returns OK leaves the path that is meant. -/
def Untruncated (host : Host) (n : ℕ) (s : Machine) (item : InstallItem CString) (b : Builder) :
    Prop :=
  ∀ ins t, (b.trans (loaded item) host n s).ending = .done ins t →
    (reading t.statics ins).dst = some (b.meant s item)

/-- **No path is truncated** just if the path that is meant fits the buffer. -/
theorem untruncated_iff (hwhole : ∀ k, host.chunk k = none) (n : ℕ) (s : Machine)
    (item : InstallItem CString) (b : Builder) :
    (b.Fits s item → Untruncated host n s item b) ∧
      (host.Sound → Untruncated host n s item b → b.Fits s item) := by
  rw [fits_iff]
  constructor
  · intro hfits ins t hrun
    obtain ⟨bufs, hwp⟩ := wp_trans (n := n) (h := []) (s := s) hwhole b item
    obtain ⟨-, -, hnames⟩ := wp_done hwp hrun
    obtain ⟨name, base, haccept, hdst⟩ := accepts_of_names b hnames
    rw [hdst, hfits name base haccept]
  · intro hsound hall name base haccept
    obtain ⟨ins, t, hrun, hdst⟩ := done_of_accepts hsound n haccept
    exact Option.some.inj (hdst.symm.trans (hall ins t hrun))

/-- A file `ab` to be copied to a directory. -/
def copyTo (dir : CString) : InstallItem CString where
  op := .copy
  src := some ['a', 'b']
  dst := none
  dir := some dir
  owner := none
  group := none
  perm := 420

/-- A file system without files. -/
def bareMachine : Machine := Machine.initial FileSys.bare []

theorem untruncated_iff_short : ∃ ins t,
    (ntranCopy (loaded (copyTo ['l', 'i', 'b'])) Host.quiet 1 bareMachine).ending =
      .done ins t ∧ (reading t.statics ins).dst = some "lib/ab".toList := by
  have hfits : Builder.Fits bareMachine (copyTo ['l', 'i', 'b']) .ntranCopy := by
    intro name base haccept
    obtain rfl : ['a', 'b'] = name := Option.some.inj haccept.target
    rw [if_pos (.inr (by decide))]
    decide +kernel
  have hmeant : Builder.meant bareMachine (copyTo ['l', 'i', 'b']) .ntranCopy =
      "lib/ab".toList := by
    decide +kernel
  have hall := (untruncated_iff sound_quiet.chunk 1 bareMachine
    (copyTo ['l', 'i', 'b']) .ntranCopy).1 hfits
  exact ⟨_, _, rfl, hmeant ▸ hall _ _ rfl⟩

theorem accepts_copyTo {dir : CString} (hlen : dir.length < 2 ^ 30) :
    Builder.Accepts bareMachine (copyTo dir) .ntranCopy ['a', 'b'] ['a', 'b'] := by
  refine ⟨by simp [copyTo], ?_, rfl, by decide, ?_⟩
  · change some ['a', 'b'] ≠ none
    simp
  · simp only [Builder.texts, copyTo, Option.getD_some, List.forall_mem_singleton, joined,
      List.length_append, List.length_cons, List.length_nil]
    omega

/-- In a directory with a path name of 1021 characters there is no room for a name of two. -/
theorem not_untruncated_copyTo : ¬ Untruncated Host.quiet 1 bareMachine
    (copyTo (List.replicate 1021 'd')) .ntranCopy := by
  have hdir : (List.replicate 1021 'd').length = 1021 := List.length_replicate
  generalize List.replicate 1021 'd' = dir at hdir
  have haccept : Builder.Accepts bareMachine (copyTo dir) .ntranCopy ['a', 'b'] ['a', 'b'] :=
    accepts_copyTo (by omega)
  obtain ⟨ins, t, hrun, hdst⟩ := done_of_accepts sound_quiet 1 haccept
  intro hall
  have hsame := Option.some.inj (hdst.symm.trans (hall ins t hrun))
  have hmeant : Builder.meant bareMachine (copyTo dir) .ntranCopy = joined dir ['a', 'b'] := rfl
  have hcut : cut (joined dir ['a', 'b']) = joined dir ['a', 'b'] := hsame.trans hmeant
  have hshort := cut_eq_self_iff.mp hcut
  simp only [joined, List.length_append, List.length_cons, List.length_nil, hdir,
    maxPathLen] at hshort
  omega

end LuaAdaLoad.Install.Truncation
