import LuaAdaLoad.System.Walks

/-!
# Walks where files are gone

A walk that leads somewhere leads there as well in a file system from which files were taken away,
if the place itself is there, no link on the way is gone, and neither is a directory that the walk
leaves by `..` (`walk_of_persists`): all other directories on the way hold something that is there.
-/

namespace LuaAdaLoad.System.Removals

open LuaAdaLoad.System.Paths LuaAdaLoad.System.FileSystem LuaAdaLoad.System.Walks

/-! ### Directories that a walk leaves -/

/-- The directories that a walk leaves by `..`. `follow` goes on behind a symbolic link. -/
def leftWith (node : Place → Option Node) (follow : Place → List Component → List Place) :
    Place → List Component → List Place
  | _, [] => []
  | p, .here :: cs => leftWith node follow p cs
  | p, .up :: cs => p :: leftWith node follow p.tail cs
  | p, .name n :: cs =>
    match (node (n :: p)).map Node.kind with
    | some (.symlink target) =>
      follow (if Absolute target then [] else p) (components target ++ cs)
    | _ => leftWith node follow (n :: p) cs

/-- The directories that a walk through at most `limit` symbolic links leaves by `..`. -/
def FileSys.left (fs : FileSys) : ℕ → Place → List Component → List Place
  | 0 => leftWith fs.node fun _ _ => []
  | limit + 1 => leftWith fs.node (FileSys.left fs limit)

variable {fs fs' : FileSys} {limit : ℕ} {p q : Place} {n : Name} {cs : List Component}

@[simp] theorem left_nil : FileSys.left fs limit p [] = [] := by cases limit <;> rfl

theorem left_here : FileSys.left fs limit p (.here :: cs) = FileSys.left fs limit p cs := by
  cases limit <;> rfl

theorem left_up : FileSys.left fs limit p (.up :: cs) = p :: FileSys.left fs limit p.tail cs := by
  cases limit <;> rfl

theorem left_link {x : Node} {target : CString} (hx : fs.node (n :: p) = some x)
    (hk : x.kind = .symlink target) : FileSys.left fs (limit + 1) p (.name n :: cs) =
      FileSys.left fs limit (if Absolute target then [] else p) (components target ++ cs) := by
  rw [FileSys.left, leftWith, hx, Option.map_some, hk]

theorem left_entry {x : Node} (hx : fs.node (n :: p) = some x)
    (hno : ∀ target, x.kind ≠ .symlink target) :
    FileSys.left fs limit p (.name n :: cs) = FileSys.left fs limit (n :: p) cs := by
  have hwith : ∀ follow, leftWith fs.node follow p (.name n :: cs) =
      leftWith fs.node follow (n :: p) cs := fun follow => by
    rw [leftWith, hx, Option.map_some]
    split
    · rename_i target h
      exact absurd (Option.some.inj h) (hno target)
    · rfl
  cases limit with
  | zero => exact hwith _
  | succ limit => exact hwith _

/-- A walk that leads somewhere leaves the same directories where all is kept. -/
theorem left_of_keeps (h : Keeps fs fs') (hw : fs.walk false limit p cs = some q) :
    FileSys.left fs' limit p cs = FileSys.left fs limit p cs := by
  refine walk_induction
    (motive := fun limit p cs => FileSys.left fs' limit p cs = FileSys.left fs limit p cs)
    ?_ ?_ ?_ ?_ ?_ hw
  · intro limit
    rw [left_nil, left_nil]
  · intro limit p cs _ _ ih
    rw [left_here, left_here, ih]
  · intro limit p cs _ _ ih
    rw [left_up, left_up, ih]
  · intro limit p n cs x target _ hx hk _ ih
    obtain ⟨x', hx', hshape⟩ := h _ x hx
    have hk' := shape_eq_symlink.mp (hshape.trans (shape_eq_symlink.mpr hk))
    rw [left_link hx' hk', left_link hx hk, ih]
  · intro limit p n cs x _ hx hno _ ih
    obtain ⟨x', hx', hshape⟩ := h _ x hx
    have hno' : ∀ target, x'.kind ≠ .symlink target := fun target hk' =>
      hno target (shape_eq_symlink.mp (hshape.symm.trans (shape_eq_symlink.mpr hk')))
    rw [left_entry hx' hno', left_entry hx hno, ih]

/-! ### Walks through new directories -/

/-- Below a place where nothing stands, nothing stands. -/
theorem node_below (hp : fs.node p = none) (h : p <:+ q) : fs.node q = none := by
  obtain ⟨ns, rfl⟩ := h
  induction ns with
  | nil => exact hp
  | cons m ns ih => exact node_below_of_not_isDir (fun hd => hd.ne_none ih) m

/-- Below a new directory a walk stays that leaves old directories only. -/
theorem suffix_of_walk_new (hmade : ∀ q, fs'.node q ≠ none → fs.node q = none → IsDir (fs'.node q))
    (hw : fs'.walk false limit p cs = some q)
    (hleft : ∀ d ∈ FileSys.left fs' limit p cs, fs.node d ≠ none) (hnew : fs.node p = none) :
    p <:+ q := by
  refine walk_induction (motive := fun limit p cs =>
    (∀ d ∈ FileSys.left fs' limit p cs, fs.node d ≠ none) → fs.node p = none → p <:+ q)
    ?_ ?_ ?_ ?_ ?_ hw hleft hnew
  · exact fun _ _ _ => List.suffix_rfl
  · intro limit p cs _ _ ih hleft
    rw [left_here] at hleft
    exact ih hleft
  · intro limit p cs _ _ _ hleft hnew
    rw [left_up] at hleft
    exact absurd hnew (hleft p List.mem_cons_self)
  · intro limit p m cs x target _ hx hk _ _ _ hnew
    have hdir := hmade (m :: p) (by simp [hx]) (node_below hnew (List.suffix_cons m p))
    obtain ⟨y, hy, hkind⟩ := isDir_iff.mp hdir
    obtain rfl := Option.some.inj (hx.symm.trans hy)
    exact absurd (hk.symm.trans hkind) (by simp)
  · intro limit p m cs x _ hx hno _ ih hleft hnew
    rw [left_entry hx hno] at hleft
    exact (List.suffix_cons m p).trans (ih hleft (node_below hnew (List.suffix_cons m p)))

/-- A walk that leaves old directories only ends below every new one that it goes through. -/
theorem suffix_of_walk_through {r : Place} {ds : List Component}
    (hmade : ∀ q, fs'.node q ≠ none → fs.node q = none → IsDir (fs'.node q))
    (hw : fs'.walk false limit p cs = some q)
    (hleft : ∀ d ∈ FileSys.left fs' limit p cs, fs.node d ≠ none) (hds : ds <+: cs)
    (hr : fs'.walk false limit p ds = some r) (hnew : fs.node r = none) : r <:+ q := by
  have hstart : ∀ {limit p cs}, fs'.walk false limit p cs = some q →
      (∀ d ∈ FileSys.left fs' limit p cs, fs.node d ≠ none) →
      fs'.walk false limit p [] = some r → r <:+ q := by
    intro limit p cs hw hleft hr
    obtain rfl : p = r := by simpa using hr
    exact suffix_of_walk_new hmade hw hleft hnew
  refine walk_induction (motive := fun limit p cs => fs'.walk false limit p cs = some q →
    (∀ d ∈ FileSys.left fs' limit p cs, fs.node d ≠ none) →
    ∀ ds, ds <+: cs → fs'.walk false limit p ds = some r → r <:+ q)
    ?_ ?_ ?_ ?_ ?_ hw hw hleft ds hds hr
  · intro limit hw hleft ds hds hr
    obtain rfl := List.prefix_nil.mp hds
    exact hstart hw hleft hr
  · intro limit p cs hp hw' ih hw hleft ds hds hr
    rcases List.prefix_cons_iff.mp hds with rfl | ⟨ds, rfl, hcs⟩
    · exact hstart hw hleft hr
    · rw [left_here] at hleft
      exact ih hw' hleft ds hcs (walk_here_some hr).2
  · intro limit p cs hp hw' ih hw hleft ds hds hr
    rcases List.prefix_cons_iff.mp hds with rfl | ⟨ds, rfl, hcs⟩
    · exact hstart hw hleft hr
    · rw [left_up] at hleft
      exact ih hw' (fun d hd => hleft d (List.mem_cons_of_mem _ hd)) ds hcs (walk_up_some hr).2
  · intro limit p m cs x target hp hx hk hw' ih hw hleft ds hds hr
    rcases List.prefix_cons_iff.mp hds with rfl | ⟨ds, rfl, hcs⟩
    · exact hstart hw hleft hr
    · rw [left_link hx hk] at hleft
      rw [walk_link hp hx hk] at hr
      exact ih hw' hleft _ ((List.prefix_append_right_inj _).mpr hcs) hr
  · intro limit p m cs x hp hx hno hw' ih hw hleft ds hds hr
    rcases List.prefix_cons_iff.mp hds with rfl | ⟨ds, rfl, hcs⟩
    · exact hstart hw hleft hr
    · rw [left_entry hx hno] at hleft
      rw [walk_entry hp hx hno] at hr
      exact ih hw' hleft ds hcs hr

/-! ### Walks that persist -/

/-- What stands in both file systems has the same shape, and no link of the first is gone. -/
structure Links (fs fs' : FileSys) : Prop where
  shape : ∀ p x x', fs.node p = some x → fs'.node p = some x' → shape x'.kind = shape x.kind
  link : ∀ p x target, fs.node p = some x → x.kind = .symlink target → fs'.node p ≠ none

theorem Links.isDir (h : Links fs fs') (hp : IsDir (fs.node p)) (hthere : fs'.node p ≠ none) :
    IsDir (fs'.node p) := by
  obtain ⟨x, hx, hk⟩ := isDir_iff.mp hp
  obtain ⟨x', hx'⟩ := Option.ne_none_iff_exists'.mp hthere
  have hshape := h.shape p x x' hx hx'
  exact isDir_iff.mpr ⟨x', hx', shape_eq_directory.mp (hshape.trans (shape_eq_directory.mpr hk))⟩

/-- What a walk needs is there behind its first step if it is there at the end. -/
theorem there_of_walk (hq : fs.node q ≠ none) (hw : fs.walk false limit p cs = some q) :
    fs.node p ≠ none := by
  rcases cs with _ | ⟨c, cs⟩
  · obtain rfl : p = q := by simpa using hw
    exact hq
  · cases c with
    | here => exact (walk_here_some hw).1.ne_none
    | up => exact (walk_up_some hw).1.ne_none
    | name n => exact (walk_name_some hw).1.ne_none

/-- **A walk persists** if its end is there, no link is gone and no directory that it leaves. -/
theorem walk_of_persists (h : Links fs fs') (hq : fs'.node q ≠ none)
    (hleft : ∀ d ∈ FileSys.left fs limit p cs, IsDir (fs.node d) → fs'.node d ≠ none)
    (hw : fs.walk false limit p cs = some q) : fs'.walk false limit p cs = some q := by
  refine walk_induction (motive := fun limit p cs =>
    (∀ d ∈ FileSys.left fs limit p cs, IsDir (fs.node d) → fs'.node d ≠ none) →
      fs'.walk false limit p cs = some q) (fun _ _ => walk_nil) ?_ ?_ ?_ ?_ hw hleft
  · intro limit p cs hp _ ih hleft
    rw [left_here] at hleft
    have hrest := ih hleft
    rw [walk_here, if_pos (h.isDir hp (there_of_walk hq hrest)), hrest]
  · intro limit p cs hp _ ih hleft
    rw [left_up] at hleft
    rw [walk_up, if_pos (h.isDir hp (hleft p List.mem_cons_self hp)),
      ih fun d hd => hleft d (List.mem_cons_of_mem _ hd)]
  · intro limit p n cs x target hp hx hk _ ih hleft
    rw [left_link hx hk] at hleft
    obtain ⟨x', hx'⟩ := Option.ne_none_iff_exists'.mp (h.link _ x target hx hk)
    have hk' := shape_eq_symlink.mp ((h.shape _ x x' hx hx').trans (shape_eq_symlink.mpr hk))
    have hp' : IsDir (fs'.node p) := isDir_of_node (by rw [hx']; simp)
    rw [walk_link hp' hx' hk']
    exact ih hleft
  · intro limit p n cs x hp hx hno _ ih hleft
    rw [left_entry hx hno] at hleft
    have hrest := ih hleft
    have hthere : fs'.node (n :: p) ≠ none := there_of_walk hq hrest
    obtain ⟨x', hx'⟩ := Option.ne_none_iff_exists'.mp hthere
    have hno' : ∀ target, x'.kind ≠ .symlink target := fun target hk' =>
      hno target (shape_eq_symlink.mp ((h.shape _ x x' hx hx').symm.trans
        (shape_eq_symlink.mpr hk')))
    rw [walk_entry (isDir_of_node hthere) hx' hno', hrest]

/-- The directories that the walk to the name of a path name leaves by `..`. -/
def FileSys.leaves (fs : FileSys) (cwd : Place) (path : CString) : List Place :=
  FileSys.left fs maxSymlinks (start cwd path) (components path).dropLast

variable {cwd : Place} {path : CString}

/-- The name of a path name is where it was if something is there. -/
theorem entry_of_persists (h : Links fs fs') (hp : fs'.node p ≠ none)
    (hleft : ∀ d ∈ FileSys.leaves fs cwd path, IsDir (fs.node d) → fs'.node d ≠ none)
    (he : FileSys.entry fs cwd path = some p) : FileSys.entry fs' cwd path = some p := by
  obtain ⟨ds, n, dir, hcs, hw, hdir, rfl⟩ := entry_iff.mp he
  rw [FileSys.leaves, hcs, List.dropLast_concat] at hleft
  have hdir' : IsDir (fs'.node dir) := isDir_of_node hp
  exact entry_iff.mpr ⟨ds, n, dir, hcs, walk_of_persists h hdir'.ne_none hleft hw, hdir', rfl⟩

theorem entry_of_keeps (h : Keeps fs fs') (he : FileSys.entry fs cwd path = some p) :
    FileSys.entry fs' cwd path = some p := by
  obtain ⟨ds, n, dir, hcs, hw, hdir, rfl⟩ := entry_iff.mp he
  exact entry_iff.mpr ⟨ds, n, dir, hcs, walk_of_keeps h hw, h.isDir hdir, rfl⟩

theorem follow_of_keeps (h : Keeps fs fs') (hf : fs.follow cwd path = some p) :
    fs'.follow cwd path = some p := by
  unfold FileSys.follow at hf ⊢
  split_ifs at hf ⊢
  obtain ⟨hw, hslash⟩ := Option.filter_eq_some_iff.mp hf
  refine Option.filter_eq_some_iff.mpr ⟨walk_of_keeps h hw, ?_⟩
  exact decide_eq_true ((of_decide_eq_true hslash).imp_right h.isDir)

/-- A path name leads to a directory itself if this is where its name is. -/
theorem follow_of_entry (hp : IsDir (fs.node p)) (he : FileSys.entry fs cwd path = some p) :
    fs.follow cwd path = some p := by
  obtain ⟨ds, n, dir, hcs, hw, hdir, rfl⟩ := entry_iff.mp he
  have hnil : path ≠ [] := by
    rintro rfl
    simp at hcs
  obtain ⟨x, hx, hk⟩ := isDir_iff.mp hp
  have hlast : fs.walk false 0 dir [.name n] = some (n :: dir) := by
    rw [walk_entry hdir hx (by simp [hk]), walk_nil]
  unfold FileSys.follow
  rw [if_neg hnil, hcs]
  exact Option.filter_eq_some_iff.mpr ⟨walk_append hw hlast, decide_eq_true (.inr hp)⟩

/-- A path name that leads to a place leads to the name there if it does where more is kept. -/
theorem entry_of_follow (h : Keeps fs fs') (hf : fs.follow cwd path = some p)
    (he : FileSys.entry fs' cwd path = some p) : FileSys.entry fs cwd path = some p := by
  obtain ⟨ds, n, dir, hcs, hw, -, rfl⟩ := entry_iff.mp he
  unfold FileSys.follow at hf
  split_ifs at hf
  obtain ⟨hwalk, -⟩ := Option.filter_eq_some_iff.mp hf
  rw [hcs] at hwalk
  obtain ⟨q, k, hq, hlast⟩ := walk_split hwalk
  obtain rfl := Option.some.inj ((walk_of_keeps h hq).symm.trans hw)
  exact entry_iff.mpr ⟨ds, n, q, hcs, hq, (walk_name_some hlast).1, rfl⟩

/-- The directories that the walk along the whole path name leaves by `..`. -/
def FileSys.leavesAll (fs : FileSys) (cwd : Place) (path : CString) : List Place :=
  FileSys.left fs maxSymlinks (start cwd path) (components path)

theorem follow_of_persists (h : Links fs fs') (hp : fs'.node p ≠ none)
    (hleft : ∀ d ∈ FileSys.leavesAll fs cwd path, IsDir (fs.node d) → fs'.node d ≠ none)
    (hf : fs.follow cwd path = some p) : fs'.follow cwd path = some p := by
  unfold FileSys.follow at hf ⊢
  split_ifs at hf ⊢
  obtain ⟨hw, hslash⟩ := Option.filter_eq_some_iff.mp hf
  refine Option.filter_eq_some_iff.mpr ⟨walk_of_persists h hp hleft hw, ?_⟩
  exact decide_eq_true ((of_decide_eq_true hslash).imp_right fun hd => h.isDir hd hp)

theorem leaves_of_keeps (h : Keeps fs fs') (he : FileSys.entry fs cwd path = some p) :
    FileSys.leaves fs' cwd path = FileSys.leaves fs cwd path := by
  obtain ⟨ds, n, dir, hcs, hw, -⟩ := entry_iff.mp he
  unfold FileSys.leaves
  rw [hcs, List.dropLast_concat]
  exact left_of_keeps h hw

theorem leavesAll_of_keeps (h : Keeps fs fs') (hf : fs.follow cwd path = some p) :
    FileSys.leavesAll fs' cwd path = FileSys.leavesAll fs cwd path := by
  unfold FileSys.follow at hf
  split_ifs at hf
  exact left_of_keeps h (Option.filter_eq_some_iff.mp hf).1

/-! ### What is removed by a path name -/

theorem entry_eq_some : FileSys.entry fs cwd path = some p ↔
    ∃ e, fs.locate cwd path = some e ∧ e.place = p := Option.map_eq_some_iff

theorem unlink_ok (hp : FileSys.entry fs cwd path = some p) (h : fs.unlink cwd path = .ok fs') :
    (∀ q, q ≠ p → fs'.node q = fs.node q) ∧ fs'.node p = none := by
  obtain ⟨e, he, rfl⟩ := entry_eq_some.mp hp
  unfold FileSys.unlink at h
  simp only [he] at h
  split_ifs at h
  obtain rfl := Except.ok.inj h
  refine ⟨fun q hq => ?_, ?_⟩
  · rw [node_remove]
    exact if_neg hq
  · rw [node_remove]
    exact if_pos rfl

theorem unlink_file {x : Node} (hp : FileSys.entry fs cwd path = some p)
    (hslash : ¬ Slashed path) (hx : fs.node p = some x) (hdir : ¬ IsDir (fs.node p)) :
    ∃ fs', fs.unlink cwd path = .ok fs' := by
  obtain ⟨e, he, rfl⟩ := entry_eq_some.mp hp
  unfold FileSys.unlink
  rw [if_neg hslash]
  simp only [he, hx]
  exact ⟨_, dif_neg (hx ▸ hdir)⟩

theorem unlink_entry (h : fs.unlink cwd path = .ok fs') :
    ∃ p, FileSys.entry fs cwd path = some p ∧ fs.node p ≠ none := by
  unfold FileSys.unlink at h
  split_ifs at h
  rcases he : fs.locate cwd path with _ | e
  · simp [he] at h
  · simp only [he] at h
    split_ifs at h with hno
    exact ⟨e.place, entry_eq_some.mpr ⟨e, he, rfl⟩, hno⟩

theorem rmdir_ok (hp : FileSys.entry fs cwd path = some p) (h : fs.rmdir cwd path = .ok fs') :
    (∀ q, q ≠ p → fs'.node q = fs.node q) ∧ fs'.node p = none := by
  obtain ⟨e, he, rfl⟩ := entry_eq_some.mp hp
  unfold FileSys.rmdir at h
  simp only [he] at h
  split_ifs at h
  obtain rfl := Except.ok.inj h
  refine ⟨fun q hq => ?_, ?_⟩
  · rw [node_remove]
    exact if_neg hq
  · rw [node_remove]
    exact if_pos rfl

theorem rmdir_vacant (hp : FileSys.entry fs cwd path = some p) (hdir : IsDir (fs.node p))
    (hvacant : ∀ m, fs.node (m :: p) = none) : ∃ fs', fs.rmdir cwd path = .ok fs' := by
  obtain ⟨e, he, rfl⟩ := entry_eq_some.mp hp
  unfold FileSys.rmdir
  simp only [he, if_neg hdir.ne_none, if_pos hdir]
  exact ⟨_, dif_pos (vacant_iff.mpr hvacant)⟩

theorem rmdir_isDir (h : fs.rmdir cwd path = .ok fs') :
    ∃ p, FileSys.entry fs cwd path = some p ∧ IsDir (fs.node p) := by
  unfold FileSys.rmdir at h
  rcases he : fs.locate cwd path with _ | e
  · simp [he] at h
  · simp only [he] at h
    split_ifs at h with hno hdir
    exact ⟨e.place, entry_eq_some.mpr ⟨e, he, rfl⟩, hdir⟩

/-- The files after `unlink`, whether it succeeds or not. -/
def FileSys.afterUnlink (fs : FileSys) (cwd : Place) (path : CString) : FileSys :=
  match fs.unlink cwd path with
  | .ok fs' => fs'
  | .error _ => fs

/-- The files after `rmdir`, whether it succeeds or not. -/
def FileSys.afterRmdir (fs : FileSys) (cwd : Place) (path : CString) : FileSys :=
  match fs.rmdir cwd path with
  | .ok fs' => fs'
  | .error _ => fs

/-- The path name leads to a name at that place, if to any, and it does if something is there. -/
structure Leads (fs : FileSys) (cwd : Place) (path : CString) (p : Place) : Prop where
  only : ∀ r, FileSys.entry fs cwd path = some r → r = p
  there : fs.node p ≠ none → FileSys.entry fs cwd path = some p

/-- Where files are gone, a path name still leads to the same place, if to any. -/
theorem leads_of_persists {fs'' : FileSys} (h : Links fs fs') (hfs : Keeps fs fs'')
    (hfs' : Keeps fs' fs'')
    (hleft : ∀ d ∈ FileSys.leaves fs cwd path, IsDir (fs.node d) → fs'.node d ≠ none)
    (he : FileSys.entry fs cwd path = some p) : Leads fs' cwd path p where
  only _ hr := Option.some.inj ((entry_of_keeps hfs' hr).symm.trans (entry_of_keeps hfs he))
  there hp := entry_of_persists h hp hleft he

/-- The file is gone afterwards. -/
theorem node_afterUnlink (h : Leads fs cwd path p) (hslash : ¬ Slashed path)
    (hdir : ¬ IsDir (fs.node p)) :
    (∀ q, q ≠ p → (FileSys.afterUnlink fs cwd path).node q = fs.node q) ∧
      (FileSys.afterUnlink fs cwd path).node p = none := by
  unfold FileSys.afterUnlink
  rcases hun : fs.unlink cwd path with e | fs'
  · refine ⟨fun _ _ => rfl, ?_⟩
    by_contra hp
    obtain ⟨x, hx⟩ := Option.ne_none_iff_exists'.mp hp
    obtain ⟨fs', hok⟩ := unlink_file (h.there hp) hslash hx hdir
    exact absurd (hun.symm.trans hok) (by simp)
  · obtain ⟨r, hr, -⟩ := unlink_entry hun
    obtain rfl := h.only r hr
    exact unlink_ok hr hun

/-- No directory but this one is gone afterwards. -/
theorem node_afterRmdir
    (h : ∀ r, FileSys.entry fs cwd path = some r → IsDir (fs.node r) → r = p) :
    (∀ q, q ≠ p → (FileSys.afterRmdir fs cwd path).node q = fs.node q) ∧
      ((FileSys.afterRmdir fs cwd path).node p = none ∨
        (FileSys.afterRmdir fs cwd path).node p = fs.node p) := by
  unfold FileSys.afterRmdir
  rcases hrm : fs.rmdir cwd path with e | fs'
  · exact ⟨fun _ _ => rfl, .inr rfl⟩
  · obtain ⟨r, hr, hdir⟩ := rmdir_isDir hrm
    obtain rfl := h r hr hdir
    obtain ⟨hother, hgone⟩ := rmdir_ok hr hrm
    exact ⟨hother, .inl hgone⟩

/-- The directory is gone afterwards if nothing was in it. -/
theorem afterRmdir_vacant (hp : FileSys.entry fs cwd path = some p) (hdir : IsDir (fs.node p))
    (hvacant : ∀ m, fs.node (m :: p) = none) :
    (FileSys.afterRmdir fs cwd path).node p = none := by
  obtain ⟨fs', hok⟩ := rmdir_vacant hp hdir hvacant
  unfold FileSys.afterRmdir
  rw [hok]
  exact (rmdir_ok hp hok).2

/-- Nothing is removed where the path name names no directory. -/
theorem afterRmdir_of_not_isDir
    (h : ∀ p, FileSys.entry fs cwd path = some p → ¬ IsDir (fs.node p)) :
    FileSys.afterRmdir fs cwd path = fs := by
  unfold FileSys.afterRmdir
  rcases hrm : fs.rmdir cwd path with e | fs'
  · rfl
  · obtain ⟨p, hp, hdir⟩ := rmdir_isDir hrm
    exact absurd hdir (h p hp)

end LuaAdaLoad.System.Removals
