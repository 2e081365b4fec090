import LuaAdaLoad.Install.Calls
import LuaAdaLoad.Install.Operators

/-!
# What the check of a file tells

`install_file_check` has to accept a file just if it is as wanted (`AsWanted`). It compares less: the
type is not compared on POSIX, of the mode only the bits in `0755` are read, and a source that does
not exist counts as an empty one (`Accepted`). `check_exact_iff` says for which files this makes a
difference.
-/

namespace LuaAdaLoad.Install.FileChecks

open LuaAdaLoad.Control.Actions LuaAdaLoad.Control.Weakest LuaAdaLoad.System.Paths
open LuaAdaLoad.System.FileSystem LuaAdaLoad.Install.Posix LuaAdaLoad.Install.Operators
open LuaAdaLoad.Install.Calls

/-- What is wanted of a file. -/
structure Want where
  type : FileType
  mode : ℕ
  uid : ℕ
  gid : ℕ

/-- The file that a path name leads to, links followed. -/
def seen (fs : FileSys) (cwd : Place) (path : CString) : Option Node :=
  (fs.stat cwd path).toOption

/-- The type of a file; a link is not followed where one is wanted. -/
def typeSeen (fs : FileSys) (cwd : Place) (path : CString) (type : FileType) : Option FileType :=
  (if type = .symlink then fs.lstat cwd path else fs.stat cwd path).toOption.bind fun x =>
    typeOf x.kind

section Spec

variable (host : Host) (fs : FileSys) (cwd : Place) (src dst : CString) (want : Want)

/-- The file exists, it has the type, the size of the source, the permission bits and the owners that
are wanted. -/
def AsWanted : Prop := ∃ x, seen fs cwd dst = some x ∧
  typeSeen fs cwd dst want.type = some want.type ∧
  (want.type = .file → ∃ y, seen fs cwd src = some y ∧ sizeOf host y.kind = sizeOf host x.kind) ∧
  x.mode &&& 511 = want.mode ∧ x.uid = want.uid ∧ x.gid = want.gid

/-- The size that a file is compared with: nothing for a source that does not exist. -/
def sizeSeen : ℕ := ((seen fs cwd src).map fun y => sizeOf host y.kind).getD 0

/-- What `install_file_check` accepts. -/
def Accepted : Prop := ∃ x, seen fs cwd dst = some x ∧ typeSeen fs cwd dst want.type ≠ none ∧
  (want.type = .file → sizeSeen host fs cwd src = sizeOf host x.kind) ∧
  x.mode &&& 493 = want.mode ∧ want.uid = x.uid ∧ want.gid = x.gid

/-- A file that the check does not mistake for another: if sizes and owners are those that are
compared, then a file of the wanted type (and with a source, if it is to have the size of one) has no
bit in `0022`, or a wrong mode in any case, and any other file has a wrong mode. -/
def Telling : Prop := ∀ x, seen fs cwd dst = some x → typeSeen fs cwd dst want.type ≠ none →
  (want.type = .file → sizeSeen host fs cwd src = sizeOf host x.kind) →
  want.uid = x.uid → want.gid = x.gid →
  if typeSeen fs cwd dst want.type = some want.type ∧
      (want.type = .file → seen fs cwd src ≠ none) then
    x.mode &&& 18 = 0 ∨ x.mode &&& 493 ≠ want.mode ∧ x.mode &&& 511 ≠ want.mode
  else x.mode &&& 493 ≠ want.mode

end Spec

variable {host : Host} {n : ℕ} {h : List Event} {s : Machine} {src dst : CString} {want : Want}

/-! ### What is read -/

section Stat

variable {path : CString} (hfault : ∀ k, host.fault k = none)

include hfault

theorem wp_look {α : Type} {f : Machine → Except Errno α}
    {Q : Post Failure Machine Event (Option α)}
    (hQ : ∀ t, Idle s t → Q.done (f s).toOption h t) : wp host n id (query f) Q h s := by
  rw [query, wp_step]
  simp only [hfault]
  rcases hf : f s with e | a
  · have hdone := hQ _ (idle_afterCall s (some e))
    rwa [hf] at hdone
  · have hdone := hQ _ (idle_afterCall s none)
    rwa [hf] at hdone

theorem wp_fileSize {Q : Post Failure Machine Event (Option ℕ)}
    (hQ : ∀ t, Idle s t → Q.done ((seen s.fs s.cwd path).map fun x => sizeOf host x.kind) h t) :
    wp host n id (fileSize path) Q h s := by
  simp only [fileSize, wp_bind, wp_ask]
  refine wp_look hfault fun t ht => ?_
  simp only [wp_pure]
  exact hQ t ht

theorem wp_fileMode {Q : Post Failure Machine Event (Option ℕ)}
    (hQ : ∀ t, Idle s t → Q.done ((seen s.fs s.cwd path).map fun x => x.mode &&& 493) h t) :
    wp host n id (fileMode path) Q h s := by
  rw [fileMode, wp_bind]
  refine wp_look hfault fun t ht => ?_
  simp only [wp_pure]
  exact hQ t ht

theorem wp_fileOwnership {Q : Post Failure Machine Event (Option (ℕ × ℕ))}
    (hQ : ∀ t, Idle s t → Q.done ((seen s.fs s.cwd path).map fun x => (x.uid, x.gid)) h t) :
    wp host n id (fileOwnership path) Q h s := by
  rw [fileOwnership, wp_bind]
  refine wp_look hfault fun t ht => ?_
  simp only [wp_pure]
  exact hQ t ht

theorem wp_fileType {type : FileType} {Q : Post Failure Machine Event (Option FileType)}
    (hQ : ∀ t, Idle s t → Q.done (typeSeen s.fs s.cwd path type) h t) :
    wp host n id (fileType path (type = .symlink)) Q h s := by
  unfold fileType typeSeen at *
  by_cases hlink : type = .symlink
  · simp only [hlink, decide_true, if_true, wp_bind] at hQ ⊢
    refine wp_look hfault fun t ht => ?_
    simp only [wp_pure]
    exact hQ t ht
  · simp only [hlink, decide_false, Bool.false_eq_true, if_false, wp_bind] at hQ ⊢
    refine wp_look hfault fun t ht => ?_
    simp only [wp_pure]
    exact hQ t ht

end Stat

theorem wp_wanted {condition : Bool} {message : String} {Q : Post Failure Machine Event Unit}
    (hdone : condition = true → Q.done () h s) (hfail : condition = false → ∀ e, Q.raised e h s) :
    wp host n id (wanted condition message) Q h s := by
  unfold wanted
  cases condition with
  | true => exact (wp_pure _).mpr (hdone rfl)
  | false => exact wp_fail.mpr (hfail rfl _)

/-- The check passes, or there is a reason for which it does not. -/
def checkPost (P : Prop) : Post Failure Machine Event Unit where
  done _ _ _ := P
  raised _ _ _ := ¬ P
  stopped _ := False

theorem wp_sizeWanted (hfault : ∀ k, host.fault k = none) {type : FileType}
    {Q : Post Failure Machine Event (Option ℕ)}
    (hQ : ∀ t sizeWant, Idle s t → (type = .file → sizeWant.getD 0 = sizeSeen host s.fs s.cwd src) →
      Q.done sizeWant h t) : wp host n id (sizeWanted src type) Q h s := by
  unfold sizeWanted
  split_ifs with htype
  · exact wp_fileSize hfault fun t ht => hQ t _ ht fun _ => rfl
  · exact (wp_pure _).mpr (hQ s _ ⟨Kept.refl s, rfl⟩ fun hfile => absurd hfile htype)

theorem wp_sizeCheck (hfault : ∀ k, host.fault k = none) {type : FileType} {sizeWant : Option ℕ}
    {Q : Post Failure Machine Event Unit}
    (hdone : ∀ t, Idle s t → (type = .file → ∃ x, seen s.fs s.cwd dst = some x ∧
      sizeWant.getD 0 = sizeOf host x.kind) → Q.done () h t)
    (hfail : ∀ e t, type = .file → (∀ x, seen s.fs s.cwd dst = some x →
      sizeWant.getD 0 ≠ sizeOf host x.kind) → Q.raised e h t) :
    wp host n id (sizeCheck sizeWant type dst) Q h s := by
  unfold sizeCheck
  split_ifs with htype
  · rw [wp_bind]
    refine wp_fileSize hfault fun t ht => ?_
    rcases hseen : seen s.fs s.cwd dst with _ | x
    · exact wp_fail.mpr (hfail _ _ htype fun x hx => by simp [hseen] at hx)
    · refine wp_wanted (fun hsize => ?_) fun hsize e => ?_
      · exact hdone t ht fun _ => ⟨x, hseen, of_decide_eq_true hsize⟩
      · refine hfail e t htype fun y hy => ?_
        obtain rfl : x = y := Option.some.inj (hseen.symm.trans hy)
        exact of_decide_eq_false hsize
  · exact (wp_pure _).mpr (hdone s ⟨Kept.refl s, rfl⟩ fun hfile => absurd hfile htype)

/-- **The check of a file** passes just if the file is accepted. -/
theorem wp_fileCheck (hfault : ∀ k, host.fault k = none) :
    wp host n id (fileCheck src want.mode want.type want.uid want.gid dst)
      (checkPost (Accepted host s.fs s.cwd src dst want)) h s := by
  simp only [fileCheck, wp_bind, wp_doing, wp_modify]
  have hreset : Idle s { s with errno := none } := ⟨⟨rfl, rfl, rfl, rfl⟩, rfl⟩
  refine wp_sizeWanted hfault fun t sizeWant ht hsize => ?_
  replace ht := hreset.trans ht
  refine wp_fileType hfault fun u hu => ?_
  rw [ht.fs, ht.cwd]
  replace hu := ht.trans hu
  rcases htype : typeSeen s.fs s.cwd dst want.type with _ | typeGot
  · simp only [wp_fail]
    rintro ⟨x, -, hno, -⟩
    exact hno htype
  have hsome : typeSeen s.fs s.cwd dst want.type ≠ none := by simp [htype]
  simp only [wp_bind]
  refine wp_wanted (fun _ => ?_) fun hno => by simp [haveSymlinks] at hno
  refine wp_sizeCheck hfault (fun v hv hsizes => ?_) fun e v hfile hsizes => ?_
  · rw [hu.fs, hu.cwd] at hsizes
    replace hv := hu.trans hv
    dsimp only
    refine wp_fileMode hfault fun w hw => ?_
    rw [hv.fs, hv.cwd]
    replace hw := hv.trans hw
    rcases hseen : seen s.fs s.cwd dst with _ | x
    · simp only [Option.map_none, wp_fail]
      rintro ⟨x, hx, -⟩
      simp [hseen] at hx
    have hsizes : want.type = .file → sizeSeen host s.fs s.cwd src = sizeOf host x.kind := by
      intro hfile
      obtain ⟨y, hy, hgot⟩ := hsizes hfile
      obtain rfl : x = y := Option.some.inj (hseen.symm.trans hy)
      exact (hsize hfile).symm.trans hgot
    have hother : ∀ {P : Node → Prop}, (∃ y, seen s.fs s.cwd dst = some y ∧ P y) → P x := by
      rintro P ⟨y, hy, hP⟩
      obtain rfl : x = y := Option.some.inj (hseen.symm.trans hy)
      exact hP
    simp only [Option.map_some, wp_bind]
    refine wp_wanted (fun hmode => ?_) fun hmode e hok => ?_
    · dsimp only
      refine wp_fileOwnership hfault fun v' hv' => ?_
      rw [hw.fs, hw.cwd, hseen]
      simp only [Option.map_some, wp_bind]
      refine wp_wanted (fun huid => ?_) fun huid e hok => ?_
      · refine wp_wanted (fun hgid => ?_) fun hgid e hok => ?_
        · exact ⟨x, hseen, hsome, hsizes, of_decide_eq_true hmode, of_decide_eq_true huid,
            of_decide_eq_true hgid⟩
        · exact of_decide_eq_false hgid (hother hok).2.2.2.2
      · exact of_decide_eq_false huid (hother hok).2.2.2.1
    · exact of_decide_eq_false hmode (hother hok).2.2.1
  · rw [hu.fs, hu.cwd] at hsizes
    rintro ⟨x, hseen, -, hsize', -⟩
    exact hsizes x hseen ((hsize hfile).trans (hsize' hfile))

/-! ### The exact condition -/

/-- `install_file_check` returns OK. -/
def Passes (host : Host) (n : ℕ) (s : Machine) (src dst : CString) (want : Want) : Prop :=
  ∃ t, (fileCheck src want.mode want.type want.uid want.gid dst host n s).ending = .done () t

theorem passes_iff (hfault : ∀ k, host.fault k = none) (n : ℕ) (s : Machine) (src dst : CString)
    (want : Want) : Passes host n s src dst want ↔ Accepted host s.fs s.cwd src dst want := by
  have hwp : wp host n id (fileCheck src want.mode want.type want.uid want.gid dst)
      (checkPost (Accepted host s.fs s.cwd src dst want)) [] s := wp_fileCheck hfault
  constructor
  · rintro ⟨t, hrun⟩
    exact wp_done hwp hrun
  · intro haccept
    unfold wp at hwp
    unfold Passes
    rcases hend : (fileCheck src want.mode want.type want.uid want.gid dst host n s).ending with
      ⟨_, t⟩ | ⟨e, t⟩ | _ | _ <;> rw [hend] at hwp
    · exact ⟨t, rfl⟩
    · exact absurd haccept hwp
    · exact absurd hwp id
    · exact absurd hwp id

/-- The bits in `0755` are all permission bits just if no bit in `0022` is set. -/
theorem mode_eq_iff (mode : ℕ) : mode &&& 511 = mode &&& 493 ↔ mode &&& 18 = 0 := by
  have hall : mode &&& 511 = (mode &&& 493) ||| (mode &&& 18) := by
    rw [← Nat.and_or_distrib_left]
    rfl
  constructor
  · intro h
    have h18 := congrArg (· &&& 18) h
    simpa [Nat.and_assoc] using h18
  · intro h
    rw [hall, h, Nat.or_zero]

/-- A file has the size of its source if the source exists and the sizes are the same. -/
theorem sizes_iff {fs : FileSys} {cwd : Place} {size : ℕ} :
    (want.type = .file → ∃ y, seen fs cwd src = some y ∧ sizeOf host y.kind = size) ↔
      (want.type = .file → seen fs cwd src ≠ none) ∧
        (want.type = .file → sizeSeen host fs cwd src = size) := by
  rw [← imp_and]
  refine imp_congr_right fun _ => ?_
  unfold sizeSeen
  rcases seen fs cwd src with _ | y
  · simp
  · simp

/-- **The check is exact** just for the files that it does not mistake for others. -/
theorem check_exact_iff (hfault : ∀ k, host.fault k = none) (n : ℕ) (s : Machine)
    (src dst : CString) (want : Want) :
    (Passes host n s src dst want ↔ AsWanted host s.fs s.cwd src dst want) ↔
      Telling host s.fs s.cwd src dst want := by
  rw [passes_iff hfault]
  rcases hseen : seen s.fs s.cwd dst with _ | x
  · simp [Accepted, AsWanted, Telling, hseen]
  simp only [Accepted, AsWanted, Telling, hseen, Option.some.injEq, exists_eq_left', forall_eq',
    sizes_iff, eq_comm (b := want.uid), eq_comm (b := want.gid)]
  have htype : typeSeen s.fs s.cwd dst want.type = some want.type →
      typeSeen s.fs s.cwd dst want.type ≠ none := fun h => by simp [h]
  have hbits := mode_eq_iff x.mode
  by_cases hsame : typeSeen s.fs s.cwd dst want.type = some want.type ∧
      (want.type = .file → seen s.fs s.cwd src ≠ none)
  · -- the only difference is the mask
    rw [if_pos hsame, ← hbits]
    generalize x.mode &&& 511 = whole, x.mode &&& 493 = read at *
    obtain ⟨hgot, hsource⟩ := hsame
    have hsome := htype hgot
    constructor
    · intro hexact _ hsizes huid hgid
      by_cases hread : read = want.mode
      · have hwhole := (hexact.mp ⟨hsome, hsizes, hread, huid, hgid⟩).2.2.1
        exact .inl (hwhole.trans hread.symm)
      · refine .inr ⟨hread, fun hwhole => hread ?_⟩
        exact (hexact.mpr ⟨hgot, ⟨hsource, hsizes⟩, hwhole, huid, hgid⟩).2.2.1
    · intro htell
      constructor
      · rintro ⟨-, hsizes, hread, huid, hgid⟩
        rcases htell hsome hsizes huid hgid with hmask | ⟨hno, -⟩
        · exact ⟨hgot, ⟨hsource, hsizes⟩, hmask.trans hread, huid, hgid⟩
        · exact absurd hread hno
      · rintro ⟨-, ⟨-, hsizes⟩, hwhole, huid, hgid⟩
        rcases htell hsome hsizes huid hgid with hmask | ⟨-, hno⟩
        · exact ⟨hsome, hsizes, hmask.symm.trans hwhole, huid, hgid⟩
        · exact absurd hwhole hno
  · -- the file must not be accepted
    rw [if_neg hsame]
    constructor
    · intro hexact hsome hsizes huid hgid hmode
      obtain ⟨hgot, ⟨hsource, -⟩, -⟩ := hexact.mp ⟨hsome, hsizes, hmode, huid, hgid⟩
      exact hsame ⟨hgot, hsource⟩
    · intro htell
      constructor
      · rintro ⟨hsome, hsizes, hmode, huid, hgid⟩
        exact absurd hmode (htell hsome hsizes huid hgid)
      · rintro ⟨hgot, ⟨hsource, -⟩, -⟩
        exact absurd ⟨hgot, hsource⟩ hsame
/-- Two empty files in the root: `b`, and `a` with a mode. -/
def filesWith (mode : ℕ) : FileSys :=
  (FileSys.bare.withFile nameB [] 420 (bare_node nameB)).withFile nameA [] mode (by decide)

/-- A file with the mode `0644` that belongs to the first user. -/
def plainFile : Want where
  type := .file
  mode := 420
  uid := 0
  gid := 0

theorem seen_a (mode : ℕ) : seen (filesWith mode) [] ['a'] = some ⟨.regular [], mode, 0, 0⟩ := rfl

theorem check_exact_plain :
    (Passes Host.quiet 1 (Machine.initial (filesWith 420) []) ['b'] ['a'] plainFile ↔
      AsWanted Host.quiet (filesWith 420) [] ['b'] ['a'] plainFile) := by
  refine (check_exact_iff sound_quiet.fault 1 (Machine.initial (filesWith 420) []) ['b'] ['a']
    plainFile).mpr fun x hx _ _ _ _ => ?_
  obtain rfl := Option.some.inj ((seen_a 420).symm.trans hx)
  rw [if_pos (by decide)]
  exact .inl (by decide)

/-- A file that everyone may write passes for one that only its owner may write. -/
theorem writable_passes :
    Passes Host.quiet 1 (Machine.initial (filesWith 438) []) ['b'] ['a'] plainFile ∧
      ¬ AsWanted Host.quiet (filesWith 438) [] ['b'] ['a'] plainFile := by
  refine ⟨⟨_, rfl⟩, ?_⟩
  rintro ⟨x, hx, -, -, hmode, -⟩
  obtain rfl := Option.some.inj ((seen_a 438).symm.trans hx)
  exact absurd hmode (by decide)

end LuaAdaLoad.Install.FileChecks
