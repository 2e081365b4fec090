import LuaAdaLoad.System.FileSystem

/-!
# Walks in changing file systems

Where a walk leads depends on directories and links only, so it leads to the same place in every
file system that keeps them (`walk_of_keeps`), and so does a walk that meets no place where two file
systems differ (`walk_elsewhere`). A walk that may make its last component finds what is there or
stops one name below a directory (`walk_create_split`).
-/

namespace LuaAdaLoad.System.Walks

open LuaAdaLoad.System.Paths LuaAdaLoad.System.FileSystem

variable {fs : FileSys} {create : Bool} {limit : ℕ} {p q : Place} {n : Name}
variable {cs : List Component}

/-! ### One step -/

@[simp] theorem walk_nil : fs.walk create limit p [] = some p := by cases limit <;> rfl

theorem walk_here : fs.walk create limit p (.here :: cs) =
    if IsDir (fs.node p) then fs.walk create limit p cs else none := by cases limit <;> rfl

theorem walk_up : fs.walk create limit p (.up :: cs) =
    if IsDir (fs.node p) then fs.walk create limit p.tail cs else none := by cases limit <;> rfl

/-- Behind a link. -/
def FileSys.behind (fs : FileSys) (create : Bool) (limit : ℕ) (p : Place) (target : CString)
    (cs : List Component) : Option Place :=
  match limit with
  | 0 => none
  | limit + 1 =>
    fs.walk create limit (if Absolute target then [] else p) (components target ++ cs)

theorem walk_name : fs.walk create limit p (.name n :: cs) =
    if IsDir (fs.node p) then
      match (fs.node (n :: p)).map Node.kind with
      | none => if create ∧ cs = [] then some (n :: p) else none
      | some (.symlink target) => FileSys.behind fs create limit p target cs
      | some _ => fs.walk create limit (n :: p) cs
    else none := by
  cases limit <;> rfl

/-- What a walk makes of a file: nothing but whether it is a directory, and where a link leads. -/
def shape : Kind → Kind
  | .regular _ => .regular []
  | kind => kind

/-- A step to a name that exists and is no link. -/
theorem walk_entry {x : Node} (hp : IsDir (fs.node p)) (hx : fs.node (n :: p) = some x)
    (hlink : ∀ target, x.kind ≠ .symlink target) :
    fs.walk create limit p (.name n :: cs) = fs.walk create limit (n :: p) cs := by
  rw [walk_name, if_pos hp, hx, Option.map_some]
  split
  · rename_i h; simp at h
  · rename_i target h; exact absurd (Option.some.inj h) (hlink target)
  · rfl

/-- A step to a link. -/
theorem walk_link {x : Node} {target : CString} (hp : IsDir (fs.node p))
    (hx : fs.node (n :: p) = some x) (hk : x.kind = .symlink target) :
    fs.walk create limit p (.name n :: cs) = FileSys.behind fs create limit p target cs := by
  rw [walk_name, if_pos hp, hx, Option.map_some, hk]

/-- What a walk that arrived went through, before a last name that it may have created. -/
theorem walk_name_cases (hcs : create = true → cs ≠ [])
    (h : fs.walk create limit p (.name n :: cs) = some q) :
    IsDir (fs.node p) ∧ ∃ x, fs.node (n :: p) = some x ∧
      ((∃ target l, x.kind = .symlink target ∧ limit = l + 1 ∧
        fs.walk create l (if Absolute target then [] else p) (components target ++ cs) = some q) ∨
      ((∀ target, x.kind ≠ .symlink target) ∧ fs.walk create limit (n :: p) cs = some q)) := by
  by_cases hp : IsDir (fs.node p)
  · refine ⟨hp, ?_⟩
    rcases hx : fs.node (n :: p) with _ | x
    · have hno : ¬ (create = true ∧ cs = []) := fun hc => hcs hc.1 hc.2
      simp [walk_name, hp, hx, hno] at h
    · refine ⟨x, rfl, ?_⟩
      by_cases hlink : ∃ target, x.kind = .symlink target
      · obtain ⟨target, hk⟩ := hlink
        rw [walk_link hp hx hk] at h
        cases limit with
        | zero => simp [FileSys.behind] at h
        | succ l => exact .inl ⟨target, l, hk, rfl, h⟩
      · have hno : ∀ target, x.kind ≠ .symlink target := fun target hk => hlink ⟨target, hk⟩
        rw [walk_entry hp hx hno] at h
        exact .inr ⟨hno, h⟩
  · simp [walk_name, hp] at h

theorem walk_name_some (h : fs.walk false limit p (.name n :: cs) = some q) :
    IsDir (fs.node p) ∧ ∃ x, fs.node (n :: p) = some x ∧
      ((∃ target l, x.kind = .symlink target ∧ limit = l + 1 ∧
        fs.walk false l (if Absolute target then [] else p) (components target ++ cs) = some q) ∨
      ((∀ target, x.kind ≠ .symlink target) ∧ fs.walk false limit (n :: p) cs = some q)) :=
  walk_name_cases (by simp) h

theorem walk_here_some (h : fs.walk false limit p (.here :: cs) = some q) :
    IsDir (fs.node p) ∧ fs.walk false limit p cs = some q := by
  rw [walk_here] at h
  split_ifs at h with hp
  exact ⟨hp, h⟩

theorem walk_up_some (h : fs.walk false limit p (.up :: cs) = some q) :
    IsDir (fs.node p) ∧ fs.walk false limit p.tail cs = some q := by
  rw [walk_up] at h
  split_ifs at h with hp
  exact ⟨hp, h⟩

/-- **Induction along a walk that arrives.** -/
theorem walk_induction {motive : ℕ → Place → List Component → Prop}
    (nil : ∀ limit, motive limit q [])
    (here : ∀ limit p cs, IsDir (fs.node p) → fs.walk false limit p cs = some q →
      motive limit p cs → motive limit p (.here :: cs))
    (up : ∀ limit p cs, IsDir (fs.node p) → fs.walk false limit p.tail cs = some q →
      motive limit p.tail cs → motive limit p (.up :: cs))
    (link : ∀ limit p n cs x target, IsDir (fs.node p) → fs.node (n :: p) = some x →
      x.kind = .symlink target →
      fs.walk false limit (if Absolute target then [] else p) (components target ++ cs) = some q →
      motive limit (if Absolute target then [] else p) (components target ++ cs) →
      motive (limit + 1) p (.name n :: cs))
    (entry : ∀ limit p n cs x, IsDir (fs.node p) → fs.node (n :: p) = some x →
      (∀ target, x.kind ≠ .symlink target) → fs.walk false limit (n :: p) cs = some q →
      motive limit (n :: p) cs → motive limit p (.name n :: cs)) :
    ∀ {limit p cs}, fs.walk false limit p cs = some q → motive limit p cs := by
  intro limit
  induction limit with
  | zero =>
    intro p cs
    induction cs generalizing p with
    | nil =>
      intro h
      obtain rfl : p = q := by simpa using h
      exact nil 0
    | cons c cs ih =>
      intro h
      cases c with
      | here => exact here _ _ _ (walk_here_some h).1 (walk_here_some h).2 (ih (walk_here_some h).2)
      | up => exact up _ _ _ (walk_up_some h).1 (walk_up_some h).2 (ih (walk_up_some h).2)
      | name n =>
        obtain ⟨hp, x, hx, ⟨target, l, -, hl, -⟩ | ⟨hno, hw⟩⟩ := walk_name_some h
        · omega
        · exact entry _ _ _ _ x hp hx hno hw (ih hw)
  | succ limit ihl =>
    intro p cs
    induction cs generalizing p with
    | nil =>
      intro h
      obtain rfl : p = q := by simpa using h
      exact nil _
    | cons c cs ih =>
      intro h
      cases c with
      | here => exact here _ _ _ (walk_here_some h).1 (walk_here_some h).2 (ih (walk_here_some h).2)
      | up => exact up _ _ _ (walk_up_some h).1 (walk_up_some h).2 (ih (walk_up_some h).2)
      | name n =>
        obtain ⟨hp, x, hx, ⟨target, l, hk, hl, hw⟩ | ⟨hno, hw⟩⟩ := walk_name_some h
        · obtain rfl : limit = l := by omega
          exact link _ _ _ _ x target hp hx hk hw (ihl hw)
        · exact entry _ _ _ _ x hp hx hno hw (ih hw)

/-! ### More links, more components -/

theorem walk_mono (h : fs.walk false limit p cs = some q) (k : ℕ) :
    fs.walk false (limit + k) p cs = some q := by
  refine walk_induction (motive := fun limit p cs => fs.walk false (limit + k) p cs = some q)
    (fun _ => walk_nil) ?_ ?_ ?_ ?_ h
  · intro limit p cs hp _ ih
    rw [walk_here, if_pos hp, ih]
  · intro limit p cs hp _ ih
    rw [walk_up, if_pos hp, ih]
  · intro limit p n cs x target hp hx hk _ ih
    rw [walk_link hp hx hk, Nat.add_right_comm]
    exact ih
  · intro limit p n cs x hp hx hno _ ih
    rw [walk_entry hp hx hno, ih]

theorem walk_append {k : ℕ} {r : Place} {ds : List Component}
    (h : fs.walk false limit p cs = some q) (hq : fs.walk false k q ds = some r) :
    fs.walk false (limit + k) p (cs ++ ds) = some r := by
  refine walk_induction
    (motive := fun limit p cs => fs.walk false (limit + k) p (cs ++ ds) = some r) ?_ ?_ ?_ ?_ ?_ h
  · intro limit
    rw [List.nil_append, Nat.add_comm]
    exact walk_mono hq limit
  · intro limit p cs hp _ ih
    rw [List.cons_append, walk_here, if_pos hp, ih]
  · intro limit p cs hp _ ih
    rw [List.cons_append, walk_up, if_pos hp, ih]
  · intro limit p n cs x target hp hx hk _ ih
    rw [List.cons_append, walk_link hp hx hk, Nat.add_right_comm]
    rwa [List.append_assoc] at ih
  · intro limit p n cs x hp hx hno _ ih
    rw [List.cons_append, walk_entry hp hx hno, ih]

/-- A walk that arrives passes through the place after its first components. -/
theorem walk_split {ds : List Component} (h : fs.walk false limit p (cs ++ ds) = some q) :
    ∃ r k, fs.walk false limit p cs = some r ∧ fs.walk false k r ds = some q := by
  have hall : ∀ cs, (cs' : List Component) → cs' ++ ds = cs →
      fs.walk false limit p cs = some q →
      ∃ r k, fs.walk false limit p cs' = some r ∧ fs.walk false k r ds = some q := by
    intro cs cs' hcs h
    refine walk_induction (motive := fun limit p cs => ∀ cs', cs' ++ ds = cs →
      ∃ r k, fs.walk false limit p cs' = some r ∧ fs.walk false k r ds = some q)
      ?_ ?_ ?_ ?_ ?_ h cs' hcs
    · intro limit cs' hcs
      obtain ⟨rfl, rfl⟩ := List.append_eq_nil_iff.mp hcs
      exact ⟨q, 0, walk_nil, walk_nil⟩
    · intro limit p cs hp hw ih cs' hcs
      rcases List.append_eq_cons_iff.mp hcs with ⟨rfl, rfl⟩ | ⟨cs'', rfl, rfl⟩
      · exact ⟨p, limit, walk_nil, by rw [walk_here, if_pos hp, hw]⟩
      · obtain ⟨r, k, hr, hk⟩ := ih cs'' rfl
        exact ⟨r, k, by rw [walk_here, if_pos hp, hr], hk⟩
    · intro limit p cs hp hw ih cs' hcs
      rcases List.append_eq_cons_iff.mp hcs with ⟨rfl, rfl⟩ | ⟨cs'', rfl, rfl⟩
      · exact ⟨p, limit, walk_nil, by rw [walk_up, if_pos hp, hw]⟩
      · obtain ⟨r, k, hr, hk⟩ := ih cs'' rfl
        exact ⟨r, k, by rw [walk_up, if_pos hp, hr], hk⟩
    · intro limit p n cs x target hp hx hk hw ih cs' hcs
      rcases List.append_eq_cons_iff.mp hcs with ⟨rfl, rfl⟩ | ⟨cs'', rfl, rfl⟩
      · exact ⟨p, limit + 1, walk_nil, by rw [walk_link hp hx hk]; exact hw⟩
      · obtain ⟨r, k, hr, hk'⟩ := ih (components target ++ cs'') (List.append_assoc _ _ _)
        exact ⟨r, k, by rw [walk_link hp hx hk]; exact hr, hk'⟩
    · intro limit p n cs x hp hx hno hw ih cs' hcs
      rcases List.append_eq_cons_iff.mp hcs with ⟨rfl, rfl⟩ | ⟨cs'', rfl, rfl⟩
      · exact ⟨p, limit, walk_nil, by rw [walk_entry hp hx hno, hw]⟩
      · obtain ⟨r, k, hr, hk⟩ := ih cs'' rfl
        exact ⟨r, k, by rw [walk_entry hp hx hno, hr], hk⟩
  exact hall _ cs rfl h

/-- Whatever the number of links, a walk that arrives arrives at the same place. -/
theorem walk_unique {k : ℕ} {r : Place} (h : fs.walk false limit p cs = some q)
    (hr : fs.walk false k p cs = some r) : q = r := by
  have hq := walk_mono h k
  have hr := walk_mono hr limit
  rw [Nat.add_comm, hr] at hq
  exact (Option.some.inj hq).symm

/-! ### Where path names lead -/

/-- A path name names a place, whatever the number of links on the way. -/
def Names (fs : FileSys) (cwd : Place) (path : CString) (p : Place) : Prop :=
  ∃ limit, (fs.spot limit (start cwd path) (components path)).map Spot.place = some p

theorem spot_iff {p r : Place} : (fs.spot limit p cs).map Spot.place = some r ↔
    ∃ ds n dir, cs = ds ++ [.name n] ∧ fs.walk false limit p ds = some dir ∧
      IsDir (fs.node dir) ∧ r = n :: dir := by
  unfold FileSys.spot
  rcases List.eq_nil_or_concat cs with rfl | ⟨ds, c, rfl⟩
  · simp
  · rw [List.concat_eq_append, List.getLast?_concat, List.dropLast_concat]
    cases c with
    | here => simp
    | up => simp
    | name n =>
      rcases hw : fs.walk false limit p ds with _ | dir
      · simp [hw]
      · by_cases hd : IsDir (fs.node dir)
        · simp [hw, hd, Spot.place, eq_comm]
        · simp [hw, hd]

theorem names_unique {cwd r : Place} {path : CString} (hp : Names fs cwd path p)
    (hr : Names fs cwd path r) : p = r := by
  obtain ⟨limit, hp⟩ := hp
  obtain ⟨k, hr⟩ := hr
  obtain ⟨ds, n, q, hcs, hq, -, rfl⟩ := spot_iff.mp hp
  obtain ⟨ds', n', q', hcs', hq', -, rfl⟩ := spot_iff.mp hr
  obtain ⟨rfl, hn⟩ := List.append_inj' (hcs.symm.trans hcs') rfl
  obtain rfl : n = n' := by simpa using hn
  rw [walk_unique hq hq']

/-- **After a change of the directory** a relative path name names what it names behind the path
name of that directory. -/
theorem names_joined {cwd cwd' : Place} {dir path : CString}
    (hdir : fs.follow cwd dir = some cwd') (hrel : ¬ Absolute path)
    (h : Names fs cwd' path p) : Names fs cwd (joined dir path) p := by
  unfold FileSys.follow at hdir
  split_ifs at hdir with hnil
  obtain ⟨hwalk, -⟩ := Option.filter_eq_some_iff.mp hdir
  obtain ⟨limit, h⟩ := h
  obtain ⟨ds, n, q, hcs, hw, hq, rfl⟩ := spot_iff.mp h
  rw [start, if_neg hrel] at hw
  have hstart : start cwd (joined dir path) = start cwd dir := by
    unfold start
    simp only [absolute_joined hnil]
  refine ⟨maxSymlinks + limit, spot_iff.mpr ⟨components dir ++ ds, n, q, ?_, ?_, hq, rfl⟩⟩
  · rw [components_joined, hcs, List.append_assoc]
  · rw [hstart]
    exact walk_append hwalk hw

/-- There is something where a walk ends. -/
theorem there_of_walked (hw : fs.walk false limit p cs = some q) (hstart : cs ≠ [] ∨ fs.node p ≠ none) :
    fs.node q ≠ none := by
  have hroot : fs.node [] ≠ none := fs.root_isDir.ne_none
  refine walk_induction (motive := fun _ p cs => cs ≠ [] ∨ fs.node p ≠ none → fs.node q ≠ none)
    ?_ ?_ ?_ ?_ ?_ hw hstart
  · rintro _ (hnil | hq)
    · exact absurd rfl hnil
    · exact hq
  · intro _ p cs hp _ ih _
    exact ih (.inr hp.ne_none)
  · intro _ p cs hp _ ih _
    refine ih (.inr ?_)
    cases p with
    | nil => exact hroot
    | cons m p => exact (isDir_of_node hp.ne_none).ne_none
  · intro _ p m cs x target hp hx _ _ ih _
    refine ih (.inr ?_)
    split_ifs
    · exact hroot
    · exact hp.ne_none
  · intro _ p m cs x _ hx _ _ ih _
    exact ih (.inr (by simp [hx]))

/-- There is something where a path name leads. -/
theorem there_of_follow {cwd : Place} {path : CString}
    (hf : fs.follow cwd path = some p) : fs.node p ≠ none := by
  unfold FileSys.follow at hf
  split_ifs at hf with hnil
  obtain ⟨hw, -⟩ := Option.filter_eq_some_iff.mp hf
  by_cases habs : Absolute path
  · refine there_of_walked hw (.inr ?_)
    rw [start, if_pos habs]
    exact fs.root_isDir.ne_none
  · exact there_of_walked hw (.inl (components_relative hnil habs))

/-! ### File systems in which all is kept -/

theorem shape_eq_directory {kind : Kind} : shape kind = .directory ↔ kind = .directory := by
  cases kind <;> simp [shape]

theorem shape_eq_symlink {kind : Kind} {target : CString} :
    shape kind = .symlink target ↔ kind = .symlink target := by
  cases kind <;> simp [shape]

/-- What stands in the one file system stands in the other, with the same shape. -/
def Keeps (fs fs' : FileSys) : Prop :=
  ∀ p x, fs.node p = some x → ∃ x', fs'.node p = some x' ∧ shape x'.kind = shape x.kind

variable {fs' fs'' : FileSys}

theorem keeps_refl (fs : FileSys) : Keeps fs fs := fun _ x hx => ⟨x, hx, rfl⟩

theorem Keeps.trans (h : Keeps fs fs') (h' : Keeps fs' fs'') : Keeps fs fs'' := fun p x hx => by
  obtain ⟨y, hy, hshape⟩ := h p x hx
  obtain ⟨z, hz, hshape'⟩ := h' p y hy
  exact ⟨z, hz, hshape'.trans hshape⟩

theorem Keeps.isDir (h : Keeps fs fs') (hp : IsDir (fs.node p)) : IsDir (fs'.node p) := by
  obtain ⟨x, hx, hk⟩ := isDir_iff.mp hp
  obtain ⟨x', hx', hshape⟩ := h p x hx
  exact isDir_iff.mpr ⟨x', hx', shape_eq_directory.mp (hshape.trans (shape_eq_directory.mpr hk))⟩

theorem Keeps.there (h : Keeps fs fs') (hp : fs.node p ≠ none) : fs'.node p ≠ none := by
  obtain ⟨x, hx⟩ := Option.ne_none_iff_exists'.mp hp
  obtain ⟨x', hx', -⟩ := h p x hx
  simp [hx']

/-- A directory was one before, if something was there. -/
theorem Keeps.isDir_iff (h : Keeps fs fs') (hp : fs.node p ≠ none) :
    IsDir (fs'.node p) ↔ IsDir (fs.node p) := by
  refine ⟨fun hd => ?_, h.isDir⟩
  obtain ⟨x, hx⟩ := Option.ne_none_iff_exists'.mp hp
  obtain ⟨x', hx', hshape⟩ := h p x hx
  obtain ⟨y, hy, hk⟩ := FileSystem.isDir_iff.mp hd
  obtain rfl := Option.some.inj (hx'.symm.trans hy)
  rw [hk] at hshape
  exact FileSystem.isDir_iff.mpr ⟨x, hx, shape_eq_directory.mp hshape.symm⟩

/-- **A walk leads to the same place** where all is kept. -/
theorem walk_of_keeps (h : Keeps fs fs') (hw : fs.walk false limit p cs = some q) :
    fs'.walk false limit p cs = some q := by
  refine walk_induction (motive := fun limit p cs => fs'.walk false limit p cs = some q)
    (fun _ => walk_nil) ?_ ?_ ?_ ?_ hw
  · intro limit p cs hp _ ih
    rw [walk_here, if_pos (h.isDir hp), ih]
  · intro limit p cs hp _ ih
    rw [walk_up, if_pos (h.isDir hp), ih]
  · intro limit p n cs x target hp hx hk _ ih
    obtain ⟨x', hx', hshape⟩ := h _ x hx
    have hk' := shape_eq_symlink.mp (hshape.trans (shape_eq_symlink.mpr hk))
    rw [walk_link (h.isDir hp) hx' hk']
    exact ih
  · intro limit p n cs x hp hx hno _ ih
    obtain ⟨x', hx', hshape⟩ := h _ x hx
    have hno' : ∀ target, x'.kind ≠ .symlink target := fun target hk' =>
      hno target (shape_eq_symlink.mp (hshape.symm.trans (shape_eq_symlink.mpr hk')))
    rw [walk_entry (h.isDir hp) hx' hno', ih]

/-- A directory that is new keeps all. -/
theorem keeps_put {x : Node} {hdir : IsDir (fs.node p)}
    {hx : IsDir (fs.node (n :: p)) → x.kind = .directory} (hnew : fs.node (n :: p) = none) :
    Keeps fs (fs.put n p x hdir hx) := fun r y hy => by
  refine ⟨y, ?_, rfl⟩
  rw [node_put, if_neg]
  · exact hy
  · rintro rfl
    simp [hnew] at hy

/-! ### Directories by path name -/

/-- The path name leads to a directory. -/
def HasDir (fs : FileSys) (cwd : Place) (path : CString) : Prop :=
  ∃ p, fs.follow cwd path = some p ∧ IsDir (fs.node p)

theorem hasDir_iff {cwd : Place} {path : CString} : HasDir fs cwd path ↔ path ≠ [] ∧
    ∃ p, fs.walk false maxSymlinks (start cwd path) (components path) = some p ∧
      IsDir (fs.node p) := by
  unfold HasDir FileSys.follow
  by_cases hnil : path = []
  · simp [hnil]
  · rw [if_neg hnil]
    constructor
    · rintro ⟨p, hfilter, hp⟩
      exact ⟨hnil, p, (Option.filter_eq_some_iff.mp hfilter).1, hp⟩
    · rintro ⟨-, p, hw, hp⟩
      exact ⟨p, Option.filter_eq_some_iff.mpr ⟨hw, decide_eq_true (.inr hp)⟩, hp⟩

theorem HasDir.keep {cwd : Place} {path : CString} (h : Keeps fs fs') (hd : HasDir fs cwd path) :
    HasDir fs' cwd path := by
  obtain ⟨hnil, p, hw, hp⟩ := hasDir_iff.mp hd
  exact hasDir_iff.mpr ⟨hnil, p, walk_of_keeps h hw, h.isDir hp⟩

/-- The way down from the root to a directory. -/
theorem walk_down (hp : IsDir (fs.node p)) :
    fs.walk false 0 [] (p.reverse.map .name) = some p := by
  induction p with
  | nil => exact walk_nil
  | cons n p ih =>
    obtain ⟨x, hx, hk⟩ := isDir_iff.mp hp
    have hparent : IsDir (fs.node p) := isDir_of_node hp.ne_none
    have hstep : fs.walk false 0 p [.name n] = some (n :: p) := by
      rw [walk_entry hparent hx (by simp [hk]), walk_nil]
    rw [List.reverse_cons, List.map_append]
    exact walk_append (ih hparent) hstep

/-- The absolute path name of a directory leads to it. -/
theorem follow_absolutePath (cwd : Place) (hp : IsDir (fs.node p)) :
    fs.follow cwd (absolutePath p) = some p := by
  have habs := absolute_absolutePath p
  have hnil : absolutePath p ≠ [] := fun h => by simp [h, Absolute] at habs
  have hw := walk_mono (walk_down hp) maxSymlinks
  rw [Nat.zero_add] at hw
  unfold FileSys.follow
  rw [if_neg hnil, start, if_pos habs, components_absolutePath, hw]
  exact Option.filter_eq_some_iff.mpr ⟨rfl, decide_eq_true (.inr hp)⟩

/-! ### File systems that differ in one file -/

/-- Nothing stands there, or a regular file. -/
def Flat (o : Option Node) : Prop := ∀ x, o = some x → ∃ content, x.kind = .regular content

theorem shape_eq_regular {kind : Kind} :
    shape kind = .regular [] ↔ ∃ content, kind = .regular content := by
  cases kind <;> simp [shape]

instance (o : Option Node) : Decidable (Flat o) :=
  decidable_of_iff (∀ x ∈ o, shape x.kind = .regular [])
    (forall₂_congr fun _ _ => shape_eq_regular)

theorem Flat.not_isDir {o : Option Node} (h : Flat o) : ¬ IsDir o := fun hd => by
  obtain ⟨x, hx, hk⟩ := isDir_iff.mp hd
  obtain ⟨content, hc⟩ := h x hx
  simp [hk] at hc

theorem Flat.not_symlink {x : Node} {target : CString} (h : Flat (some x)) :
    x.kind ≠ .symlink target := fun hk => by
  obtain ⟨content, hc⟩ := h x rfl
  simp [hk] at hc

/-- The file systems differ at one place at most, where a regular file may stand. -/
structure Elsewhere (r : Place) (fs fs' : FileSys) : Prop where
  node : ∀ p, p ≠ r → fs'.node p = fs.node p
  flat : Flat (fs.node r)
  flat' : Flat (fs'.node r)

variable {r : Place}

theorem Elsewhere.symm (h : Elsewhere r fs fs') : Elsewhere r fs' fs :=
  ⟨fun p hp => (h.node p hp).symm, h.flat', h.flat⟩

theorem Elsewhere.isDir (h : Elsewhere r fs fs') : IsDir (fs'.node p) ↔ IsDir (fs.node p) := by
  rcases eq_or_ne p r with rfl | hp
  · exact iff_of_false h.flat'.not_isDir h.flat.not_isDir
  · rw [h.node p hp]

/-- A walk ends where no directory stands. -/
theorem walk_of_not_isDir (hp : ¬ IsDir (fs.node p)) (h : fs.walk false limit p cs = some q) :
    q = p := by
  rcases cs with _ | ⟨c, cs⟩
  · exact (Option.some.inj (walk_nil.symm.trans h)).symm
  · cases c with
    | here => exact absurd (walk_here_some h).1 hp
    | up => exact absurd (walk_up_some h).1 hp
    | name n => exact absurd (walk_name_some h).1 hp

/-- **A walk that leads elsewhere** is the same in both file systems. -/
theorem walk_elsewhere (h : Elsewhere r fs fs') (hq : q ≠ r)
    (hw : fs.walk false limit p cs = some q) : fs'.walk false limit p cs = some q := by
  refine walk_induction (motive := fun limit p cs => fs'.walk false limit p cs = some q)
    (fun _ => walk_nil) ?_ ?_ ?_ ?_ hw
  · intro limit p cs hp _ ih
    rw [walk_here, if_pos (h.isDir.mpr hp), ih]
  · intro limit p cs hp _ ih
    rw [walk_up, if_pos (h.isDir.mpr hp), ih]
  · intro limit p n cs x target hp hx hk _ ih
    have hne : n :: p ≠ r := by
      rintro rfl
      exact Flat.not_symlink (hx ▸ h.flat) hk
    rw [walk_link (h.isDir.mpr hp) ((h.node _ hne).trans hx) hk]
    exact ih
  · intro limit p n cs x hp hx hno hw ih
    have hne : n :: p ≠ r := by
      rintro rfl
      exact hq (walk_of_not_isDir h.flat.not_isDir hw)
    rw [walk_entry (h.isDir.mpr hp) ((h.node _ hne).trans hx) hno, ih]

theorem walk_isDir_elsewhere (h : Elsewhere r fs fs') (hq : IsDir (fs.node q))
    (hw : fs.walk false limit p cs = some q) : fs'.walk false limit p cs = some q := by
  refine walk_elsewhere h ?_ hw
  rintro rfl
  exact h.flat.not_isDir hq

theorem follow_elsewhere {cwd : Place} {path : CString} (h : Elsewhere r fs fs') (hq : q ≠ r)
    (hf : fs.follow cwd path = some q) : fs'.follow cwd path = some q := by
  unfold FileSys.follow at hf ⊢
  split_ifs at hf ⊢
  obtain ⟨hw, hslash⟩ := Option.filter_eq_some_iff.mp hf
  refine Option.filter_eq_some_iff.mpr ⟨walk_elsewhere h hq hw, ?_⟩
  exact decide_eq_true ((of_decide_eq_true hslash).imp_right h.isDir.mpr)

/-- The place of the name that a path name names. -/
def FileSys.entry (fs : FileSys) (cwd : Place) (path : CString) : Option Place :=
  (fs.locate cwd path).map Spot.place

theorem entry_iff {cwd : Place} {path : CString} : FileSys.entry fs cwd path = some p ↔
    ∃ ds n dir, components path = ds ++ [.name n] ∧
      fs.walk false maxSymlinks (start cwd path) ds = some dir ∧ IsDir (fs.node dir) ∧
      p = n :: dir := spot_iff

theorem entry_elsewhere {cwd : Place} {path : CString} (h : Elsewhere r fs fs') :
    FileSys.entry fs' cwd path = FileSys.entry fs cwd path := by
  refine Option.ext fun p => ?_
  rw [entry_iff, entry_iff]
  constructor
  · rintro ⟨ds, n, dir, hcs, hw, hdir, rfl⟩
    exact ⟨ds, n, dir, hcs, walk_isDir_elsewhere h.symm hdir hw, h.isDir.mp hdir, rfl⟩
  · rintro ⟨ds, n, dir, hcs, hw, hdir, rfl⟩
    exact ⟨ds, n, dir, hcs, walk_isDir_elsewhere h hdir hw, h.isDir.mpr hdir, rfl⟩

theorem stat_elsewhere {cwd : Place} {path : CString} (h : Elsewhere r fs fs')
    (hnone : fs'.node r = none) (hf : fs.follow cwd path ≠ some r) :
    fs'.stat cwd path = fs.stat cwd path := by
  have hsame : (fs'.follow cwd path).bind fs'.node = (fs.follow cwd path).bind fs.node := by
    rcases hf' : fs'.follow cwd path with _ | q
    · rcases hs : fs.follow cwd path with _ | q
      · rfl
      · have hq : q ≠ r := fun hq => hf (hq ▸ hs)
        rw [follow_elsewhere h hq hs] at hf'
        exact absurd hf' (by simp)
    · by_cases hq : q = r
      · subst hq
        rcases hs : fs.follow cwd path with _ | q'
        · exact hnone
        · have hq' : q' ≠ q := fun hq => hf (hq ▸ hs)
          rw [follow_elsewhere h hq' hs] at hf'
          exact absurd (Option.some.inj hf') hq'
      · rw [follow_elsewhere h.symm hq hf']
        exact h.node q hq
  unfold FileSys.stat
  rw [hsame]

theorem locate_bind_node (fs : FileSys) (cwd : Place) (path : CString) :
    ((fs.locate cwd path).bind fun s => fs.node s.place) =
      (FileSys.entry fs cwd path).bind fs.node := by
  rw [FileSys.entry, Option.bind_map]
  rfl

/-- `lstat` of a path name that names an entry. -/
theorem lstat_entry {cwd : Place} {path : CString} {x : Node} (hslash : ¬ Slashed path)
    (hq : FileSys.entry fs cwd path = some q) (hx : fs.lstat cwd path = .ok x) :
    fs.node q = some x := by
  obtain ⟨ds, n, dir, hcs, -⟩ := entry_iff.mp hq
  unfold FileSys.lstat at hx
  rw [if_neg hslash, locate_bind_node, hq, Option.bind_some, hcs, List.getLast?_concat] at hx
  rcases hnode : fs.node q with _ | y
  · simp [hnode] at hx
  · simp only [hnode] at hx
    rw [Except.ok.inj hx]

theorem lstat_elsewhere {cwd : Place} {path : CString} (h : Elsewhere r fs fs')
    (hstat : fs'.stat cwd path = fs.stat cwd path)
    (he : ¬ Slashed path → FileSys.entry fs cwd path ≠ some r) :
    fs'.lstat cwd path = fs.lstat cwd path := by
  by_cases hslash : Slashed path
  · unfold FileSys.lstat
    rw [if_pos hslash, if_pos hslash, hstat]
  have hsame : (FileSys.entry fs' cwd path).bind fs'.node =
      (FileSys.entry fs cwd path).bind fs.node := by
    rw [entry_elsewhere h]
    rcases hp : FileSys.entry fs cwd path with _ | p
    · rfl
    · exact h.node p fun hpr => he hslash (hpr ▸ hp)
  unfold FileSys.lstat
  rw [locate_bind_node, locate_bind_node, hsame, hstat]

/-! ### Walks that create -/

/-- A walk that may create its last name goes as others do before its last components. -/
theorem walk_create_split (hcs : cs ≠ []) (limit : ℕ) : ∀ {ds : List Component} {p : Place},
    fs.walk true limit p (ds ++ cs) = some q →
    ∃ dir l, fs.walk false limit p ds = some dir ∧ fs.walk true l dir cs = some q := by
  induction limit with
  | zero =>
    intro ds
    induction ds with
    | nil => exact fun {p} h => ⟨p, 0, walk_nil, h⟩
    | cons c ds ih =>
      intro p h
      rw [List.cons_append] at h
      cases c with
      | here =>
        rw [walk_here] at h ⊢
        split_ifs at h ⊢
        exact ih h
      | up =>
        rw [walk_up] at h ⊢
        split_ifs at h ⊢
        exact ih h
      | name m =>
        obtain ⟨hp, x, hx, ⟨target, l, -, hl, -⟩ | ⟨hno, hw⟩⟩ := walk_name_cases (by simp [hcs]) h
        · omega
        · rw [walk_entry hp hx hno]
          exact ih hw
  | succ limit ihl =>
    intro ds
    induction ds with
    | nil => exact fun {p} h => ⟨p, limit + 1, walk_nil, h⟩
    | cons c ds ih =>
      intro p h
      rw [List.cons_append] at h
      cases c with
      | here =>
        rw [walk_here] at h ⊢
        split_ifs at h ⊢
        exact ih h
      | up =>
        rw [walk_up] at h ⊢
        split_ifs at h ⊢
        exact ih h
      | name m =>
        obtain ⟨hp, x, hx, ⟨target, l, hk, hl, hw⟩ | ⟨hno, hw⟩⟩ := walk_name_cases (by simp [hcs]) h
        · obtain rfl : limit = l := by omega
          rw [walk_link hp hx hk]
          rw [← List.append_assoc] at hw
          exact ihl hw
        · rw [walk_entry hp hx hno]
          exact ih hw

/-- Where a walk that may create its last name ends, if no link stands there. -/
theorem walk_create_last (hflat : Flat (fs.node (n :: p)))
    (h : fs.walk true limit p [.name n] = some q) : IsDir (fs.node p) ∧ q = n :: p := by
  by_cases hp : IsDir (fs.node p)
  · refine ⟨hp, ?_⟩
    rcases hx : fs.node (n :: p) with _ | x
    · rw [walk_name, if_pos hp, hx, Option.map_none] at h
      simpa [eq_comm] using h
    · rw [walk_entry hp hx fun target => Flat.not_symlink (hx ▸ hflat), walk_nil] at h
      exact (Option.some.inj h).symm
  · simp [walk_name, hp] at h

end LuaAdaLoad.System.Walks
