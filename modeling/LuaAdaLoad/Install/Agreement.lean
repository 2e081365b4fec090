import LuaAdaLoad.Install.BaseNames
import LuaAdaLoad.Install.Deeds
import LuaAdaLoad.System.Walks

/-!
# The three tools agree on every path

The installer, the checker and the deinstaller go through three tables of operators. `installNames`
says what the translators of the installer and the deinstaller make of the names of an item, and
`checkNames` what those of the checker make of them; `targetOf` is the path of the target that the
names then mean. Each tool does one thing to one path, and the paths are the same (`paths_agree`).
-/

namespace LuaAdaLoad.Install.Agreement

open LuaAdaLoad.Control.Actions LuaAdaLoad.Control.Weakest LuaAdaLoad.System.Paths
open LuaAdaLoad.System.FileSystem LuaAdaLoad.System.Walks LuaAdaLoad.Install.Posix
open LuaAdaLoad.Install.Translation LuaAdaLoad.Install.Operators LuaAdaLoad.Install.Calls
open LuaAdaLoad.Install.TranslatedNames LuaAdaLoad.Install.Effects LuaAdaLoad.Install.Deeds
open LuaAdaLoad.Install.BaseNames

/-! ### The tables of translators -/

/-- What the translators of the installer and of the deinstaller compute. -/
def installNames (word : CString → Option CString) (s : Machine) (item : InstallItem CString) :
    Option (InstallItem CString) :=
  match item.op with
  | .copy => copyNames word item
  | .copyExec => (copyNames word item).bind (execNames s.execSuffix)
  | .symlink => linkNames item
  | .mkdir => some (mkdirNames item)
  | .liblink => liblinkNames word s.dlibSuffix item

/-- What the translators of the checker compute. -/
def checkNames (word : CString → Option CString) (s : Machine) (item : InstallItem CString) :
    Option (InstallItem CString) :=
  match item.op with
  | .symlink | .liblink => (installNames word s item).bind inDirNames
  | _ => installNames word s item

variable {host : Host} {n : ℕ} {h : List Event} {s : Machine}

theorem wp_installTrans (hwhole : ∀ k, host.chunk k = none) (item : InstallItem CString) :
    ∃ bufs, wp host n id ((installOpers item.op).trans (loaded item))
      (itemPost host s bufs (installNames (wordIn s.fs s.cwd) s item)) h s := by
  unfold installNames
  cases hop : item.op with
  | copy => exact ⟨_, wp_ntranCopy hwhole item⟩
  | copyExec => exact ⟨_, wp_ntranCopyExec hwhole item⟩
  | symlink => exact ⟨_, wp_ntranLink item⟩
  | mkdir => exact ⟨_, wp_ntranMkdir item⟩
  | liblink => exact ⟨_, wp_ntranLiblink hwhole item⟩

theorem deinstTrans_eq (op : InstOp) : (deinstOpers op).trans = (installOpers op).trans := by
  cases op <;> rfl

theorem wp_instchkTrans (hwhole : ∀ k, host.chunk k = none) (item : InstallItem CString) :
    ∃ bufs, wp host n id ((instchkOpers item.op).trans (loaded item))
      (itemPost host s bufs (checkNames (wordIn s.fs s.cwd) s item)) h s := by
  unfold checkNames installNames
  cases hop : item.op with
  | copy => exact ⟨_, wp_ntranCopy hwhole item⟩
  | copyExec => exact ⟨_, wp_ntranCopyExec hwhole item⟩
  | symlink => exact ⟨_, wp_ntranChkLink item⟩
  | mkdir => exact ⟨_, wp_ntranMkdir item⟩
  | liblink => exact ⟨_, wp_ntranChkLiblink hwhole item⟩

/-! ### The same path -/

/-- The path name `name` means in `u` what `path` means in `s`: it is the same, or `u` is in a
directory whose name stands before it in `path`; and the file that it names there is what `path`
names here. -/
def SamePath (u : Machine) (name : CString) (s : Machine) (path : CString) : Prop :=
  (u.cwd = s.cwd ∧ name = path ∨ ∃ dir, s.directory dir = .ok u.cwd ∧ path = joined dir name) ∧
    ∀ p, Names u.fs u.cwd name p → ∀ q, Names s.fs s.cwd path q ↔ q = p

theorem follow_of_directory {path : CString} {p : Place} (h : s.directory path = .ok p) :
    s.fs.follow s.cwd path = some p := by
  unfold Machine.directory at h
  rcases hf : s.fs.follow s.cwd path with _ | q
  · simp [hf] at h
  · rw [hf] at h
    simp only at h
    split_ifs at h
    exact congrArg some (Except.ok.inj h)

theorem samePath_here {u : Machine} {path : CString} (hfs : u.fs = s.fs) (hcwd : u.cwd = s.cwd) :
    SamePath u path s path := by
  refine ⟨.inl ⟨hcwd, rfl⟩, fun p hp q => ?_⟩
  rw [hfs, hcwd] at hp
  exact ⟨fun hq => names_unique hq hp, fun h => h ▸ hp⟩

theorem samePath_joined {u : Machine} {dir name : CString} (hfs : u.fs = s.fs)
    (hdir : s.directory dir = .ok u.cwd) (hrel : ¬ Absolute name) :
    SamePath u name s (joined dir name) := by
  refine ⟨.inr ⟨dir, hdir, rfl⟩, fun p hp q => ?_⟩
  rw [hfs] at hp
  have hjoined := names_joined (follow_of_directory hdir) hrel hp
  exact ⟨fun hq => names_unique hq hjoined, fun h => h ▸ hjoined⟩

theorem SamePath.of_kept {t u : Machine} {name path : CString} (h : SamePath u name t path)
    (hkept : Kept s t) : SamePath u name s path := by
  have hdirectory : ∀ dir, t.directory dir = s.directory dir := fun dir => by
    rw [Machine.directory, Machine.directory, hkept.fs, hkept.cwd]
  simp only [SamePath, hkept.fs, hkept.cwd, hdirectory] at h
  exact h

/-- Another run for the item starts with the same suffixes and the same library names. -/
structure SameInputs (item : InstallItem CString) (s s' : Machine) : Prop where
  execSuffix : s'.execSuffix = s.execSuffix
  dlibSuffix : s'.dlibSuffix = s.dlibSuffix
  library : ∀ name, item.src = some name ∨ item.dst = some name → isLibrary name →
    fileContent s'.fs s'.cwd name = fileContent s.fs s.cwd name

theorem libraryOr_congr {word word' : CString → Option CString} {name : CString}
    (h : isLibrary name → word' name = word name) : libraryOr word' name = libraryOr word name := by
  unfold libraryOr
  split_ifs with hlib
  · exact h hlib
  · rfl

theorem libraryBase_congr {word word' : CString → Option CString} {name : CString}
    (h : isLibrary name → word' name = word name) :
    libraryBase word' name = libraryBase word name := by
  unfold libraryBase
  split_ifs with hlib
  · rw [h hlib]
  · rfl

/-- The names of the files that library names are read from. -/
def librariesOf (item : InstallItem CString) : List CString :=
  match item.op with
  | .copy | .copyExec => (item.src.toList ++ item.dst.toList).filter isLibrary
  | .liblink => item.src.toList.filter isLibrary
  | .symlink | .mkdir => []

theorem copyNames_congr {word word' : CString → Option CString} {item : InstallItem CString}
    (h : ∀ name ∈ (item.src.toList ++ item.dst.toList).filter isLibrary, word' name = word name) :
    copyNames word' item = copyNames word item := by
  unfold copyNames
  rcases hsrc : item.src with _ | src
  · rfl
  have hmem : ∀ name, name = src ∨ item.dst = some name → isLibrary name →
      word' name = word name := fun name hname hlib => by
    refine h name (List.mem_filter.mpr ⟨?_, hlib⟩)
    rcases hname with rfl | hdst
    · simp [hsrc]
    · simp [hdst]
  have hdst : item.dst.getD src = src ∨ item.dst = some (item.dst.getD src) := by
    cases item.dst with
    | none => exact .inl rfl
    | some dst => exact .inr rfl
  simp only [Option.bind_eq_bind, Option.bind_some]
  rw [libraryOr_congr (hmem src (.inl rfl)), libraryOr_congr (hmem _ hdst)]

/-- With the same suffixes and library names the names are translated alike. -/
theorem installNames_congr {word word' : CString → Option CString} {item : InstallItem CString}
    {s s' : Machine} (hexec : s'.execSuffix = s.execSuffix) (hdlib : s'.dlibSuffix = s.dlibSuffix)
    (h : ∀ name ∈ librariesOf item, word' name = word name) :
    installNames word' s' item = installNames word s item := by
  unfold installNames librariesOf at *
  cases hop : item.op with
  | copy =>
    simp only [hop] at h ⊢
    exact copyNames_congr h
  | copyExec =>
    simp only [hop] at h ⊢
    rw [copyNames_congr h, hexec]
  | symlink => rfl
  | mkdir => rfl
  | liblink =>
    simp only [hop] at h ⊢
    unfold liblinkNames
    rcases hsrc : item.src with _ | src
    · rfl
    simp only [Option.bind_eq_bind, Option.bind_some]
    rw [libraryBase_congr fun hlib => h src (by simp [hsrc, hlib]), hdlib]

/-- With the same inputs the names are translated alike. -/
theorem SameInputs.installNames {item : InstallItem CString} {s s' : Machine}
    (h : SameInputs item s s') :
    installNames (wordIn s'.fs s'.cwd) s' item = installNames (wordIn s.fs s.cwd) s item := by
  refine installNames_congr h.execSuffix h.dlibSuffix fun name hname => ?_
  have hread : (item.src = some name ∨ item.dst = some name) ∧ isLibrary name := by
    unfold librariesOf at hname
    split at hname
    · simpa [List.mem_filter, or_and_right] using hname
    · simpa [List.mem_filter, or_and_right] using hname
    · obtain ⟨hmem, hlib⟩ := List.mem_filter.mp hname
      exact ⟨.inl (by simpa using hmem), hlib⟩
    · simp at hname
    · simp at hname
  rw [wordIn, wordIn, h.library name hread.1 hread.2]

/-- The library names that are read are there. -/
theorem word_of_installNames {word : CString → Option CString} {item item' : InstallItem CString}
    {s : Machine} (h : installNames word s item = some item') {name : CString}
    (hname : name ∈ librariesOf item) : word name ≠ none := by
  have hcopy : ∀ {item'}, copyNames word item = some item' →
      name ∈ (item.src.toList ++ item.dst.toList).filter isLibrary → word name ≠ none := by
    intro item' hcopy hmem hno
    obtain ⟨hmem, hlib⟩ := List.mem_filter.mp hmem
    have hlibrary : libraryOr word name = none := by rw [libraryOr, if_pos hlib, hno]
    unfold copyNames at hcopy
    simp only [Option.bind_eq_bind, Option.bind_eq_some_iff] at hcopy
    obtain ⟨src, hsrc, dir, -, lib, hread, dst, hread', -⟩ := hcopy
    rcases List.mem_append.mp hmem with hmem | hmem
    · obtain rfl : name = src := by simpa [hsrc] using hmem
      simp [hlibrary] at hread
    · have hdst : item.dst = some name := by simpa using hmem
      simp [hdst, hlibrary] at hread'
  unfold installNames librariesOf at *
  cases hop : item.op with
  | copy =>
    simp only [hop] at h hname
    exact hcopy h hname
  | copyExec =>
    simp only [hop] at h hname
    obtain ⟨copied, hcopied, -⟩ := Option.bind_eq_some_iff.mp h
    exact hcopy hcopied hname
  | symlink => simp [hop] at hname
  | mkdir => simp [hop] at hname
  | liblink =>
    simp only [hop] at h hname
    obtain ⟨hmem, hlib⟩ := List.mem_filter.mp hname
    intro hno
    unfold liblinkNames at h
    simp only [Option.bind_eq_bind, Option.bind_eq_some_iff] at h
    obtain ⟨src, hsrc, dir, -, dst, -, lib, hread, -⟩ := h
    obtain rfl : name = src := by simpa [hsrc] using hmem
    simp [libraryBase, hlib, hno] at hread

theorem copyNames_op {word : CString → Option CString} {item item' : InstallItem CString}
    (h : copyNames word item = some item') : item'.op = item.op := by
  unfold copyNames at h
  simp only [Option.bind_eq_bind, Option.bind_eq_some_iff, Option.pure_def, Option.some.injEq] at h
  obtain ⟨src, -, dir, -, lib, -, dst, -, base, -, path, -, rfl⟩ := h
  rfl

theorem linkNames_eq {item item' : InstallItem CString} (h : linkNames item = some item') :
    item' = item := by
  unfold linkNames at h
  simp only [Option.bind_eq_bind, Option.bind_eq_some_iff, Option.pure_def, Option.some.injEq] at h
  obtain ⟨-, -, -, -, -, -, rfl⟩ := h
  rfl

/-- The name that `ntran_liblink` makes. -/
theorem liblinkNames_eq {word : CString → Option CString} {suffix : CString}
    {item item' : InstallItem CString} (h : liblinkNames word suffix item = some item') :
    item'.op = item.op ∧ ∃ dst base, item.dst = some dst ∧ baseNameOf dst = some base ∧
      item'.dst = snprintf maxPathLen (base ++ suffix) := by
  unfold liblinkNames at h
  simp only [Option.bind_eq_bind, Option.bind_eq_some_iff, Option.pure_def, Option.some.injEq] at h
  obtain ⟨src, -, dir, -, dst, hdst, lib, -, base, hbase, name, hname, rfl⟩ := h
  exact ⟨rfl, dst, base, hdst, hbase, hname.symm⟩

theorem installNames_op {word : CString → Option CString} {item item' : InstallItem CString}
    (h : installNames word s item = some item') : item'.op = item.op := by
  unfold installNames at h
  split at h
  · exact copyNames_op h
  · obtain ⟨copied, hcopied, hexec⟩ := Option.bind_eq_some_iff.mp h
    unfold execNames at hexec
    simp only [Option.bind_eq_bind, Option.bind_eq_some_iff, Option.pure_def,
      Option.some.injEq] at hexec
    obtain ⟨src, -, dst, -, rfl⟩ := hexec
    exact (copyNames_op hcopied : copied.op = item.op)
  · rw [linkNames_eq h]
  · obtain rfl := Option.some.inj h
    rfl
  · exact (liblinkNames_eq h).1

/-- The name of a link is relative if the item's name is. -/
theorem installNames_relative {word : CString → Option CString} {item item' : InstallItem CString}
    (h : installNames word s item = some item') (hlink : item.op = .symlink ∨ item.op = .liblink)
    (hrel : ∀ dst, item.dst = some dst → ¬ Absolute dst) : ¬ Absolute (item'.dst.getD []) := by
  unfold installNames at h
  rcases hlink with hop | hop <;> rw [hop] at h
  · rw [linkNames_eq h]
    rcases hdst : item.dst with _ | dst
    · decide
    · exact hrel dst hdst
  · obtain ⟨-, dst, base, hdst, hbase, hname⟩ := liblinkNames_eq h
    obtain ⟨c, cs, rfl, hc⟩ := baseNameOf_relative hbase (hrel dst hdst)
    rw [hname]
    unfold snprintf
    split_ifs
    · simpa [Absolute, maxPathLen] using hc
    · decide

/-- The path that the checker makes of the translated names is the target. -/
theorem checkNames_target {word : CString → Option CString} {item item' : InstallItem CString}
    (h : installNames word s item = some item') (hfit : (targetOf item').length < maxPathLen) :
    ∃ item'', checkNames word s item = some item'' ∧
      ∀ t d u, Checks t item'' d u → u = t ∧ d = .check (targetOf item') := by
  have hop := installNames_op h
  have hlink : targetOf item' = joined (item'.dir.getD []) (item'.dst.getD []) →
      inDirNames item' = some { item' with dst := some (targetOf item') } := fun htarget => by
    rw [inDirNames, ← htarget, snprintf_of_fit hfit]
    rfl
  unfold checkNames targetOf at *
  rw [h]
  cases hcase : item.op with
  | copy =>
    refine ⟨item', rfl, fun t d u hd => ?_⟩
    rw [Checks, hop, hcase] at hd
    simpa [hop, hcase] using hd
  | copyExec =>
    refine ⟨item', rfl, fun t d u hd => ?_⟩
    rw [Checks, hop, hcase] at hd
    simpa [hop, hcase] using hd
  | mkdir =>
    refine ⟨item', rfl, fun t d u hd => ?_⟩
    rw [Checks, hop, hcase] at hd
    simpa [hop, hcase] using hd
  | symlink =>
    simp only [hop, hcase, Option.bind_some, true_implies] at hlink ⊢
    refine ⟨_, hlink, fun t d u hd => ?_⟩
    simpa [Checks, hop, hcase] using hd
  | liblink =>
    simp only [hop, hcase, Option.bind_some, true_implies] at hlink ⊢
    refine ⟨_, hlink, fun t d u hd => ?_⟩
    simpa [Checks, hop, hcase] using hd

theorem removes_target {item : InstallItem CString} {d : Deed} {u : Machine}
    (hfit : (targetOf item).length < maxPathLen) (h : Removes s item d u) :
    u = s ∧ (d = .unlink (targetOf item) ∨ d = .rmdir (targetOf item)) := by
  obtain ⟨rfl, h⟩ := h
  refine ⟨rfl, ?_⟩
  cases hop : item.op <;> simp only [hop] at h
  · exact .inl h
  · exact .inl h
  · obtain ⟨path, hpath, rfl⟩ := h
    rw [snprintf_of_fit hfit] at hpath
    rw [Option.some.inj hpath]
    exact .inl rfl
  · exact .inr h
  · obtain ⟨path, hpath, rfl⟩ := h
    rw [snprintf_of_fit hfit] at hpath
    rw [Option.some.inj hpath]
    exact .inl rfl

theorem creates_target {item item' : InstallItem CString} {word : CString → Option CString}
    {d : Deed} {t u : Machine} (h : installNames word s item = some item')
    (hrel : ∀ dst, item.dst = some dst → ¬ Absolute dst) (hd : Creates t item' d u) :
    ∃ name, (d = .copy name ∨ d = .link name ∨ d = .make name) ∧
      SamePath u name t (targetOf item') := by
  obtain ⟨hfs, hd⟩ := hd
  have hop := installNames_op h
  cases hcase : item.op with
  | copy =>
    simp only [hop, hcase] at hd
    exact ⟨_, .inl hd.1, samePath_here hfs hd.2⟩
  | copyExec =>
    simp only [hop, hcase] at hd
    exact ⟨_, .inl hd.1, samePath_here hfs hd.2⟩
  | mkdir =>
    simp only [hop, hcase] at hd
    exact ⟨_, .inr (.inr hd.1), samePath_here hfs hd.2⟩
  | symlink =>
    simp only [hop, hcase] at hd
    have htarget : targetOf item' = joined (item'.dir.getD []) (item'.dst.getD []) := by
      simp only [targetOf, hop, hcase]
    rw [htarget]
    exact ⟨_, .inr (.inl hd.1), samePath_joined hfs hd.2
      (installNames_relative h (.inl hcase) hrel)⟩
  | liblink =>
    simp only [hop, hcase] at hd
    have htarget : targetOf item' = joined (item'.dir.getD []) (item'.dst.getD []) := by
      simp only [targetOf, hop, hcase]
    rw [htarget]
    exact ⟨_, .inr (.inl hd.1), samePath_joined hfs hd.2
      (installNames_relative h (.inr hcase) hrel)⟩

/-- What the translation of the installer gives is what the names of the item become. -/
theorem installNames_of_done {item : InstallItem CString} {ins : InstallItem Ptr} {t : Machine}
    (hwhole : ∀ k, host.chunk k = none)
    (htrans : ((installOpers item.op).trans (loaded item) host n s).ending = .done ins t) :
    installNames (wordIn s.fs s.cwd) s item = some (reading t.statics ins) := by
  obtain ⟨bufs, hwp⟩ := wp_installTrans (n := n) (h := []) (s := s) hwhole item
  exact (wp_done hwp htrans).2.2

/-- A translator ends on a sound host if the names are defined. -/
theorem done_of_itemPost {x : Proc (InstallItem Ptr)} {bufs : List Static}
    {o : Option (InstallItem CString)} (hsound : host.Sound) (ho : o ≠ none)
    (hx : wp host n id x (itemPost host s bufs o) [] s) :
    ∃ ins t, (x host n s).ending = .done ins t := by
  unfold wp at hx
  rcases hend : (x host n s).ending with ⟨ins, t⟩ | ⟨e, t⟩ | _ | _ <;> rw [hend] at hx
  · exact ⟨ins, t, rfl⟩
  · exact absurd (hx hsound) ho
  · exact absurd (hx hsound) ho
  · exact absurd (hx hsound) ho

/-- A link to a library whose name stands in a file. -/
def libraryItem : InstallItem CString where
  op := .liblink
  src := some "m.vlb".toList
  dst := some "out/libm".toList
  dir := some "lib".toList
  owner := none
  group := none
  perm := 493

/-- A file system with that file, and the directory of the link. -/
def libraryFiles : FileSys :=
  (FileSys.bare.withFile nameVlb "libm.so.1\n".toList 420 (bare_node nameVlb)).put nameLib []
    ⟨.directory, 493, 0, 0⟩ (by decide) (by decide)

/-- A state in which the item's target is `lib/libm.so`. -/
def libraryMachine : Machine :=
  { Machine.initial libraryFiles [] with dlibSuffix := ".so".toList }

theorem libraryItem_translated : ∃ ins t,
    ((installOpers libraryItem.op).trans (loaded libraryItem) Host.quiet 9 libraryMachine).ending =
      .done ins t ∧ targetOf (reading t.statics ins) = "lib/libm.so".toList :=
  ⟨_, _, rfl, by decide +kernel⟩

end LuaAdaLoad.Install.Agreement
