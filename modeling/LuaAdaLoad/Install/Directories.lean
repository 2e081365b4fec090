import LuaAdaLoad.Install.Calls
import LuaAdaLoad.Install.Operators
import LuaAdaLoad.System.Walks

/-!
# Making the directories of a path

`install_rmkdir` makes the directories along a path (`pathDirs`), one after the other. It compares
what `iposix_mkdir` returns with `-1`, but that is 1 or 0, and so it never sees a failure and always
returns 1 (`wp_rmkdirLoop`). It tells the truth just if there is nothing to see (`truthful_iff`).
-/

namespace LuaAdaLoad.Install.Directories

open LuaAdaLoad.Control.Actions LuaAdaLoad.Control.Weakest LuaAdaLoad.System.Paths
open LuaAdaLoad.System.FileSystem LuaAdaLoad.System.Walks LuaAdaLoad.Install.Posix
open LuaAdaLoad.Install.Translation LuaAdaLoad.Install.Operators LuaAdaLoad.Install.Calls

/-! ### The directories along a path -/

/-- The parts of a path that end in its slashes; `buf` stands in front of it. -/
def dirsAlong (buf : CString) : CString → List CString
  | [] => []
  | c :: cs =>
    if c = '/' then (buf ++ ['/']) :: dirsAlong (buf ++ ['/']) cs else dirsAlong (buf ++ [c]) cs

/-- The path names of the directories along a path, and of the last one. -/
def pathDirs (dir : CString) : List CString :=
  dirsAlong [] dir ++ if dir = [] ∨ Slashed dir then [] else [dir ++ ['/']]

/-- The directories that the loop makes: the last one is left out where no slash fits behind it. -/
def loopDirs (buf rest : CString) : List CString :=
  dirsAlong buf rest ++
    if rest = [] ∨ Slashed rest ∨ maxPathLen ≤ buf.length + rest.length + 1 then []
    else [buf ++ rest ++ ['/']]

theorem dirsAlong_append (buf c rest : CString) (hc : '/' ∉ c) :
    dirsAlong buf (c ++ rest) = dirsAlong (buf ++ c) rest := by
  induction c generalizing buf with
  | nil => rw [List.nil_append, List.append_nil]
  | cons x c ih =>
    have hx : x ≠ '/' := fun h => hc (h ▸ List.mem_cons_self)
    rw [List.cons_append, dirsAlong, if_neg hx, ih _ fun h => hc (List.mem_cons_of_mem _ h)]
    rw [List.append_assoc]
    rfl

theorem loopDirs_slash (buf c rest : CString) (hc : '/' ∉ c) :
    loopDirs buf (c ++ '/' :: rest) =
      (buf ++ c ++ ['/']) :: loopDirs (buf ++ c ++ ['/']) rest := by
  have hlast : Slashed (c ++ '/' :: rest) ↔ rest = [] ∨ Slashed rest := by
    unfold Slashed
    rw [List.getLast?_append_cons]
    rcases rest with _ | ⟨x, rest⟩
    · simp
    · simp [List.getLast?_cons_cons]
  have hnil : c ++ '/' :: rest ≠ [] := by simp
  have hlen : (buf ++ c ++ ['/']).length + rest.length = buf.length + (c ++ '/' :: rest).length := by
    simp only [List.length_append, List.length_cons, List.length_nil]
    omega
  have hpath : buf ++ c ++ ['/'] ++ rest ++ ['/'] = buf ++ (c ++ '/' :: rest) ++ ['/'] := by simp
  unfold loopDirs
  rw [dirsAlong_append _ _ _ hc, dirsAlong, if_pos rfl, hlen, hpath]
  simp only [hnil, hlast, false_or, or_assoc, List.cons_append]

theorem loopDirs_last {buf rest : CString} (hnil : rest ≠ []) (hrest : '/' ∉ rest) :
    loopDirs buf rest = if maxPathLen ≤ buf.length + rest.length + 1 then []
      else [buf ++ rest ++ ['/']] := by
  have hlast : ¬ Slashed rest := fun h => hrest (List.mem_of_getLast? h)
  have halong : dirsAlong buf rest = [] := by
    have := dirsAlong_append buf rest [] hrest
    rwa [List.append_nil] at this
  unfold loopDirs
  simp only [halong, hnil, hlast, false_or, List.nil_append]

/-- But for a path that is one character too long, the loop makes all directories. -/
theorem pathDirs_eq (dir : CString) : pathDirs dir = loopDirs [] dir ++
    if dir = [] ∨ Slashed dir ∨ dir.length + 1 < maxPathLen then [] else [dir ++ ['/']] := by
  unfold pathDirs loopDirs
  by_cases hnil : dir = []
  · simp [hnil]
  by_cases hlast : Slashed dir
  · simp [hlast]
  by_cases hlen : dir.length + 1 < maxPathLen
  · have hno : ¬ maxPathLen ≤ ([] : CString).length + dir.length + 1 := by
      simp only [List.length_nil]
      omega
    simp only [hnil, hlast, hno, hlen, or_true, if_true, or_self, if_false, List.nil_append,
      List.append_nil]
  · have hyes : maxPathLen ≤ ([] : CString).length + dir.length + 1 := by
      simp only [List.length_nil]
      omega
    simp only [hnil, hlast, hyes, hlen, or_true, if_true, or_self, if_false, List.append_nil]

/-! ### What `mkdir` does -/

section Mkdir

variable {fs fs' : FileSys} {cwd : Place} {path : CString} {mode uid gid : ℕ}

theorem mkdir_ok (h : fs.mkdir cwd path mode uid gid = .ok fs') :
    ∃ s, fs.locate cwd path = some s ∧ fs.node s.place = none ∧
      fs' = fs.put s.name s.dir ⟨.directory, mode, uid, gid⟩ s.isDir fun _ => rfl := by
  unfold FileSys.mkdir at h
  rcases hloc : fs.locate cwd path with _ | s <;> rw [hloc] at h
  · exact absurd h (by simp)
  · simp only at h
    split_ifs at h with hnode
    exact ⟨s, rfl, hnode, (Except.ok.inj h).symm⟩

theorem locate_some {s : Spot fs} (h : fs.locate cwd path = some s) : ∃ ds,
    components path = ds ++ [.name s.name] ∧
      fs.walk false maxSymlinks (start cwd path) ds = some s.dir := by
  have hspot : (fs.spot maxSymlinks (start cwd path) (components path)).map Spot.place =
      some s.place := by
    rw [← FileSys.locate, h]
    rfl
  obtain ⟨ds, n, dir, hcs, hw, -, hplace⟩ := spot_iff.mp hspot
  obtain ⟨hn, hdir⟩ := List.cons.inj hplace
  exact ⟨ds, by rw [hcs, hn], by rw [hw, hdir]⟩

theorem mkdir_keeps (h : fs.mkdir cwd path mode uid gid = .ok fs') : Keeps fs fs' := by
  obtain ⟨s, -, hnode, rfl⟩ := mkdir_ok h
  exact keeps_put hnode

/-- The directory that `mkdir` makes, and nothing else. -/
theorem mkdir_made (h : fs.mkdir cwd path mode uid gid = .ok fs') :
    ∃ p, fs.node p = none ∧ IsDir (fs'.node p) ∧ (∀ q, q ≠ p → fs'.node q = fs.node q) ∧
      fs'.walk false maxSymlinks (start cwd path) (components path) = some p := by
  have hkeeps := mkdir_keeps h
  obtain ⟨s, hloc, hnode, hfs⟩ := mkdir_ok h
  obtain ⟨ds, hcs, hw⟩ := locate_some hloc
  have hnew : fs'.node (s.name :: s.dir) = some ⟨.directory, mode, uid, gid⟩ := by
    rw [hfs, node_put, if_pos rfl]
  have hstep : fs'.walk false 0 s.dir [.name s.name] = some (s.name :: s.dir) := by
    rw [walk_entry (hkeeps.isDir s.isDir) hnew (by simp), walk_nil]
  refine ⟨s.place, hnode, isDir_iff.mpr ⟨_, hnew, rfl⟩, fun q hq => ?_, ?_⟩
  · rw [hfs, node_put]
    exact if_neg hq
  · rw [hcs]
    exact walk_append (walk_of_keeps hkeeps hw) hstep

/-- `mkdir` makes the directory. -/
theorem mkdir_hasDir (h : fs.mkdir cwd path mode uid gid = .ok fs') : HasDir fs' cwd path := by
  obtain ⟨p, -, hdir, -, hw⟩ := mkdir_made h
  obtain ⟨s, hloc, -⟩ := mkdir_ok h
  obtain ⟨ds, hcs, -⟩ := locate_some hloc
  have hnil : path ≠ [] := by
    rintro rfl
    simp at hcs
  exact hasDir_iff.mpr ⟨hnil, p, hw, hdir⟩

/-- `mkdir` makes no directory that is there. -/
theorem mkdir_of_hasDir (h : HasDir fs cwd path) :
    ∃ e, fs.mkdir cwd path mode uid gid = .error e := by
  rcases hmk : fs.mkdir cwd path mode uid gid with e | fs'
  · exact ⟨e, rfl⟩
  · obtain ⟨s, hloc, hnode, -⟩ := mkdir_ok hmk
    obtain ⟨ds, hcs, hw⟩ := locate_some hloc
    obtain ⟨-, p, hp, -⟩ := hasDir_iff.mp h
    rw [hcs] at hp
    obtain ⟨r, k, hr, hk⟩ := walk_split hp
    obtain rfl := walk_unique hw hr
    obtain ⟨-, x, hx, -⟩ := walk_name_some hk
    exact absurd (hx.symm.trans hnode) (by simp)

end Mkdir

/-! ### What the loop does -/

/-- A call of `mkdir`: the path, the state before it, and why it failed. -/
structure MkdirCall where
  path : CString
  before : Machine
  failure : Option Errno

/-- The calls of `mkdir` in a log. -/
def mkdirsOf (h : List Event) : List MkdirCall := h.filterMap fun
  | .mkdir path s failure => some ⟨path, s, failure⟩
  | _ => none

/-- The call succeeds, or it fails because the directory is there. -/
def MkdirCall.Tolerable (call : MkdirCall) : Prop :=
  call.failure = none ∨ (call.failure = some .exists ∨ call.failure = some .isDirectory) ∧
    HasDir call.before.fs call.before.cwd call.path

/-- The files after an attempt to make a directory. -/
def made (host : Host) (perm : ℕ) (cwd : Place) (fs : FileSys) (path : CString) : FileSys :=
  match fs.mkdir cwd path (host.masked 1023 perm) host.uid host.gid with
  | .ok fs' => fs'
  | .error _ => fs

theorem made_keeps (host : Host) (perm : ℕ) (cwd : Place) (fs : FileSys) (path : CString) :
    Keeps fs (made host perm cwd fs path) := by
  unfold made
  rcases hmk : fs.mkdir cwd path (host.masked 1023 perm) host.uid host.gid with e | fs'
  · exact keeps_refl fs
  · exact mkdir_keeps hmk

theorem foldl_made_keeps (host : Host) (perm : ℕ) (cwd : Place) (fs : FileSys)
    (paths : List CString) : Keeps fs (paths.foldl (made host perm cwd) fs) := by
  induction paths generalizing fs with
  | nil => exact keeps_refl fs
  | cons path paths ih => exact (made_keeps host perm cwd fs path).trans (ih _)

variable {host : Host} {n : ℕ} {h : List Event} {s : Machine} {perm : ℕ}

/-- A tolerable call leaves the directory behind, as an attempt to make it does. -/
theorem wp_installMkdir {path : CString} {Q : Post Failure Machine Event ℤ}
    (hQ : ∀ i (call : MkdirCall) t, i ≠ -1 → t.cwd = s.cwd → call.path = path →
      (call.Tolerable → t.fs = made host perm s.cwd s.fs path ∧ HasDir t.fs s.cwd path) →
      Q.done i (h ++ [.mkdir call.path call.before call.failure]) t) :
    wp host n id (installMkdir path perm) Q h s := by
  simp only [installMkdir, wp_bind, wp_get]
  refine wp_change (fun e _ => ?_) fun fs hfs => ?_
  · simp only [wp_get, wp_note, wp_pure, id]
    refine hQ 0 ⟨path, s, some e⟩ _ (by decide) rfl rfl ?_
    rintro (hno | ⟨-, hdir⟩)
    · exact absurd hno (by simp)
    · obtain ⟨e', hmk⟩ : ∃ e', s.fs.mkdir s.cwd path (host.masked 1023 perm) host.uid host.gid =
        .error e' := mkdir_of_hasDir hdir
      refine ⟨?_, hdir⟩
      rw [made, hmk]
      rfl
  · simp only [wp_get, wp_note, wp_pure, id]
    refine hQ 1 ⟨path, s, none⟩ _ (by decide) rfl rfl fun _ => ⟨?_, mkdir_hasDir hfs⟩
    rw [made, hfs]

/-- The first component of a path, and what is behind it. -/
theorem first_component {buf rest : CString} (hnil : rest ≠ [])
    (hroom : ¬ maxPathLen - buf.length ≤ rest.idxOf '/' + 1) : ∃ c rest',
    rest.take (rest.idxOf '/') = c ∧ rest.drop (rest.idxOf '/' + 1) = rest' ∧
      rest'.length < rest.length ∧
      (buf.length + rest.length < maxPathLen → (buf ++ c ++ ['/']).length + rest'.length < maxPathLen) ∧
      loopDirs buf rest = (buf ++ c ++ ['/']) :: loopDirs (buf ++ c ++ ['/']) rest' := by
  by_cases hmem : '/' ∈ rest
  · obtain ⟨c, rest', rfl, hc⟩ := List.eq_append_cons_of_mem hmem
    have hpos : (c ++ '/' :: rest').idxOf '/' = c.length := by
      rw [List.idxOf_append_of_notMem hc, List.idxOf_cons_self, Nat.add_zero]
    rw [hpos]
    refine ⟨c, rest', List.take_left, ?_, ?_, ?_, loopDirs_slash buf c rest' hc⟩
    · simp [List.drop_append]
    · simp only [List.length_append, List.length_cons]
      omega
    · simp only [List.length_append, List.length_cons, List.length_nil]
      omega
  · have hpos : rest.idxOf '/' = rest.length := List.idxOf_of_notMem hmem
    rw [hpos] at hroom ⊢
    have hlast : loopDirs buf rest = [buf ++ rest ++ ['/']] := by
      rw [loopDirs_last hnil hmem, if_neg (by omega)]
    have hpos : 0 < rest.length := List.length_pos_of_ne_nil hnil
    refine ⟨rest, [], List.take_length, by simp, hpos, ?_, hlast⟩
    simp only [List.length_append, List.length_cons, List.length_nil]
    omega

/-- 1 is returned; if all calls are tolerable, all directories are made. -/
def rmkdirPost (host : Host) (perm : ℕ) (s : Machine) (h : List Event) (dirs : List CString) :
    Post Failure Machine Event Bool where
  done ok h' t := ok = true ∧ t.cwd = s.cwd ∧ ∃ calls, mkdirsOf h' = mkdirsOf h ++ calls ∧
    ((∀ call ∈ calls, call.Tolerable) →
      t.fs = dirs.foldl (made host perm s.cwd) s.fs ∧ ∀ b ∈ dirs, HasDir t.fs s.cwd b)
  raised _ _ _ := False
  stopped _ := False

/-- **The loop makes every directory and never sees a failure.** -/
theorem wp_rmkdirLoop (k : ℕ) : ∀ {buf rest : CString} {h : List Event} {s : Machine},
    rest.length < k → buf.length + rest.length < maxPathLen →
    wp host n id (rmkdirLoop perm k buf rest) (rmkdirPost host perm s h (loopDirs buf rest)) h s := by
  induction k with
  | zero => intro buf rest h s hk; omega
  | succ k ih =>
    intro buf rest h s hk hlen
    rw [rmkdirLoop]
    by_cases hnil : rest = []
    · rw [if_pos hnil]
      subst hnil
      exact (wp_pure _).mpr ⟨rfl, rfl, [], by simp, fun _ => by simp [loopDirs, dirsAlong]⟩
    rw [if_neg hnil]
    by_cases hroom : maxPathLen - buf.length ≤ rest.idxOf '/' + 1
    · -- no slash fits behind the last component
      have hmem : '/' ∉ rest := fun hmem => by
        have hpos := List.idxOf_lt_length_of_mem hmem
        omega
      rw [List.idxOf_of_notMem hmem] at hroom
      have hno : loopDirs buf rest = [] := by
        rw [loopDirs_last hnil hmem, if_pos (by omega)]
      rw [if_pos (by rwa [List.idxOf_of_notMem hmem]), hno]
      exact (wp_pure _).mpr ⟨rfl, rfl, [], by simp, fun _ => by simp⟩
    · rw [if_neg hroom]
      obtain ⟨c, rest', htake, hdrop, hless, hfit, hloop⟩ := first_component hnil hroom
      rw [htake, hdrop, hloop]
      simp only [wp_bind]
      refine wp_installMkdir fun i call t hi hcwd hpath htol => ?_
      simp only [wp_get, hi, decide_false, Bool.false_and, Bool.false_eq_true, if_false]
      refine wp_mono (ih (by omega) (hfit hlen)) ?_ (fun _ _ _ => id) fun _ => id
      rintro ok h' u ⟨hok, hcwd', calls, hcalls, hall⟩
      refine ⟨hok, hcwd'.trans hcwd, call :: calls, ?_, fun htols => ?_⟩
      · rw [hcalls]
        simp [mkdirsOf]
      · obtain ⟨hfs, hdirs⟩ := hall fun c hc => htols c (List.mem_cons_of_mem _ hc)
        obtain ⟨hmade, hdir⟩ := htol (htols call List.mem_cons_self)
        rw [hcwd] at hfs hdirs
        rw [hmade] at hfs hdir
        refine ⟨hfs, fun b hb => ?_⟩
        rcases List.mem_cons.mp hb with rfl | hb
        · rw [hfs]
          exact hdir.keep (foldl_made_keeps host perm s.cwd _ _)
        · exact hdirs b hb

/-! ### What `install_rmkdir` reports -/

/-- `install_rmkdir` returns 1 only where all directories of the path are there at its end; it
returns 0 where a `mkdir` fails for another reason than that the directory is there, and 1 where all
directories are there from the start. -/
structure Truthful (host : Host) (n : ℕ) (s : Machine) (dir : CString) (perm : ℕ) : Prop where
  one : ∀ t, (installRmkdir dir perm host n s).ending = .done true t →
    ∀ b ∈ pathDirs dir, HasDir t.fs t.cwd b
  zero : (∃ call ∈ mkdirsOf (installRmkdir dir perm host n s).log, ¬ call.Tolerable) →
    ∃ t, (installRmkdir dir perm host n s).ending = .done false t
  there : (∀ b ∈ pathDirs dir, HasDir s.fs s.cwd b) →
    ∃ t, (installRmkdir dir perm host n s).ending = .done true t

theorem wp_installRmkdir {dir : CString} (hlen : dir.length < maxPathLen) :
    wp host n id (installRmkdir dir perm) (rmkdirPost host perm s h (loopDirs [] dir)) h s := by
  simp only [installRmkdir, wp_bind, wp_doing, if_neg (not_le.mpr hlen)]
  have hstart : mkdirsOf (h ++ [.deed (.make dir) s]) = mkdirsOf h := by simp [mkdirsOf]
  have hloop : wp host n id (rmkdirLoop perm (dir.length + 1) [] dir)
      (rmkdirPost host perm s (h ++ [.deed (.make dir) s]) (loopDirs [] dir))
      (h ++ [.deed (.make dir) s]) s :=
    wp_rmkdirLoop (dir.length + 1) (Nat.lt_succ_self _) (by simpa using hlen)
  unfold rmkdirPost at hloop ⊢
  rwa [hstart] at hloop

theorem installRmkdir_run {dir : CString} (hlen : dir.length < maxPathLen) (host : Host) (n : ℕ)
    (s : Machine) (perm : ℕ) : ∃ t, (installRmkdir dir perm host n s).ending = .done true t ∧
      t.cwd = s.cwd ∧
      ((∀ call ∈ mkdirsOf (installRmkdir dir perm host n s).log, call.Tolerable) →
        t.fs = (loopDirs [] dir).foldl (made host perm s.cwd) s.fs ∧
        ∀ b ∈ loopDirs [] dir, HasDir t.fs s.cwd b) := by
  have hwp : wp host n id (installRmkdir dir perm) (rmkdirPost host perm s [] (loopDirs [] dir)) [] s :=
    wp_installRmkdir hlen
  unfold wp at hwp
  rw [List.map_id, List.nil_append] at hwp
  rcases hend : (installRmkdir dir perm host n s).ending with ⟨ok, t⟩ | ⟨e, t⟩ | _ | _ <;>
    rw [hend] at hwp
  · obtain ⟨rfl, hcwd, calls, hcalls, hall⟩ := hwp
    refine ⟨t, rfl, hcwd, fun htol => hall fun call hcall => htol call ?_⟩
    rw [hcalls]
    exact hcall
  · exact absurd hwp id
  · exact absurd hwp id
  · exact absurd hwp id

/-- **`install_rmkdir` reports the truth** just if every `mkdir` succeeds or finds the directory
there, and the last directory of a path that fills the buffer need not be made. -/
theorem truthful_iff {dir : CString} (hlen : dir.length < maxPathLen) (host : Host) (n : ℕ)
    (s : Machine) (perm : ℕ) : Truthful host n s dir perm ↔
      (∀ call ∈ mkdirsOf (installRmkdir dir perm host n s).log, call.Tolerable) ∧
      (dir.length + 1 = maxPathLen → ¬ Slashed dir →
        HasDir ((loopDirs [] dir).foldl (made host perm s.cwd) s.fs) s.cwd (dir ++ ['/'])) := by
  obtain ⟨t, hrun, hcwd, hall⟩ := installRmkdir_run hlen host n s perm
  have hpaths := pathDirs_eq dir
  constructor
  · rintro ⟨hone, hzero, -⟩
    have htol : ∀ call ∈ mkdirsOf (installRmkdir dir perm host n s).log, call.Tolerable := by
      intro call hcall
      by_contra hno
      obtain ⟨t', hfalse⟩ := hzero ⟨call, hcall, hno⟩
      simp [hrun] at hfalse
    refine ⟨htol, fun hfull hslash => ?_⟩
    have hlast : dir ++ ['/'] ∈ pathDirs dir := by
      have hnil : dir ≠ [] := by
        rintro rfl
        simp [maxPathLen] at hfull
      rw [pathDirs, if_neg (by simp [hnil, hslash])]
      simp
    rw [← (hall htol).1, ← hcwd]
    exact hone t hrun _ hlast
  · rintro ⟨htol, hlast⟩
    obtain ⟨hfs, hdirs⟩ := hall htol
    refine ⟨fun t' hrun' b hb => ?_, fun ⟨call, hcall, hno⟩ => absurd (htol call hcall) hno,
      fun _ => ⟨t, hrun⟩⟩
    obtain rfl : t = t' := by
      rw [hrun] at hrun'
      simpa using hrun'
    rw [hpaths] at hb
    rw [hcwd]
    rcases List.mem_append.mp hb with hb | hb
    · exact hdirs b hb
    · split_ifs at hb with hskip
      · simp at hb
      · simp only [not_or, not_lt] at hskip
        obtain rfl := List.mem_singleton.mp hb
        rw [hfs]
        exact hlast (by omega) hskip.2.1

/-- A host on which the first call fails for lack of permission. -/
def denying : Host :=
  { Host.quiet with fault := fun k => if k = 0 then some (.other 13) else none }

theorem truthful_iff_new : Truthful Host.quiet 0 (Machine.initial FileSys.bare []) ['a'] 493 := by
  refine (truthful_iff (by decide) Host.quiet 0 (Machine.initial FileSys.bare []) 493).mpr
    ⟨fun call hcall => ?_, fun hfull => absurd hfull (by decide)⟩
  have hcalls : mkdirsOf (installRmkdir ['a'] 493 Host.quiet 0
      (Machine.initial FileSys.bare [])).log = [⟨['a', '/'], _, none⟩] := rfl
  rw [hcalls] at hcall
  obtain rfl := List.mem_singleton.mp hcall
  exact .inl rfl

/-- A directory cannot be made, and 1 is returned. -/
theorem not_truthful_denied :
    ¬ Truthful denying 0 (Machine.initial FileSys.bare []) ['a'] 493 := by
  rintro ⟨-, hzero, -⟩
  have hcalls : mkdirsOf (installRmkdir ['a'] 493 denying 0
      (Machine.initial FileSys.bare [])).log = [⟨['a', '/'], _, some (.other 13)⟩] := rfl
  rw [hcalls] at hzero
  obtain ⟨t, hfalse⟩ := hzero ⟨_, List.mem_singleton_self _, fun htol => by
    rcases htol with hno | ⟨hno | hno, -⟩
    · exact absurd hno (by decide)
    · exact absurd hno (by decide)
    · exact absurd hno (by decide)⟩
  have hlen : (['a'] : CString).length < maxPathLen := by decide
  obtain ⟨t', htrue, -⟩ := installRmkdir_run hlen denying 0
    (Machine.initial FileSys.bare []) 493
  rw [htrue] at hfalse
  simp at hfalse

end LuaAdaLoad.Install.Directories
