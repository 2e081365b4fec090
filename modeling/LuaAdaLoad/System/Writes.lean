import LuaAdaLoad.System.Removals

/-!
# Writing one file

Opening a file for writing makes or changes the file at one place. From then on the path name still
leads there, whatever is written, and no path name gets another meaning (`Written`). The calls that
take the name of an entry change nothing at other places.
-/

namespace LuaAdaLoad.System.Writes

open LuaAdaLoad.System.Paths LuaAdaLoad.System.FileSystem LuaAdaLoad.System.Walks
open LuaAdaLoad.System.Removals

variable {fs fs' : FileSys} {cwd p q w : Place} {limit : ℕ} {cs : List Component} {path : CString}

/-- A walk that arrives need not create anything. -/
theorem walk_create (h : fs.walk false limit p cs = some q) : fs.walk true limit p cs = some q := by
  refine walk_induction (motive := fun limit p cs => fs.walk true limit p cs = some q)
    (fun _ => walk_nil) ?_ ?_ ?_ ?_ h
  · intro limit p cs hp _ ih
    rw [walk_here, if_pos hp, ih]
  · intro limit p cs hp _ ih
    rw [walk_up, if_pos hp, ih]
  · intro limit p n cs x target hp hx hk _ ih
    rw [walk_link hp hx hk]
    exact ih
  · intro limit p n cs x hp hx hno _ ih
    rw [walk_entry hp hx hno, ih]

/-- A file was written at one place, where there was nothing or a file of the same shape. -/
structure Written (w : Place) (fs fs' : FileSys) : Prop where
  node : ∀ p, p ≠ w → fs'.node p = fs.node p
  here : ∃ x', fs'.node w = some x' ∧ (fs.node w = none → ∃ content, x'.kind = .regular content) ∧
    ∀ x, fs.node w = some x → shape x'.kind = shape x.kind

/-- What can be resolved is the same, but that the file may be new. -/
theorem Written.same (h : Written w fs fs') :
    Elsewhere w fs fs' ∨ Keeps fs fs' ∧ Keeps fs' fs := by
  obtain ⟨x', hx', hnew, hold⟩ := h.here
  rcases hx : fs.node w with _ | x
  · obtain ⟨content, hk⟩ := hnew hx
    refine .inl ⟨h.node, fun x hsome => absurd (hx.symm.trans hsome) nofun, fun y hy => ?_⟩
    obtain rfl := Option.some.inj (hx'.symm.trans hy)
    exact ⟨content, hk⟩
  · have hshape := hold x hx
    refine .inr ⟨fun p y hy => ?_, fun p y hy => ?_⟩
    · by_cases hp : p = w
      · subst hp
        obtain rfl := Option.some.inj (hx.symm.trans hy)
        exact ⟨x', hx', hshape⟩
      · exact ⟨y, (h.node p hp).trans hy, rfl⟩
    · by_cases hp : p = w
      · subst hp
        obtain rfl := Option.some.inj (hx'.symm.trans hy)
        exact ⟨x, hx, hshape.symm⟩
      · exact ⟨y, (h.node p hp).symm.trans hy, rfl⟩

theorem Written.entry (h : Written w fs fs') :
    FileSys.entry fs' cwd path = FileSys.entry fs cwd path := by
  rcases h.same with helse | ⟨hkeeps, hback⟩
  · exact entry_elsewhere helse
  · exact Option.ext fun p => ⟨entry_of_keeps hback, entry_of_keeps hkeeps⟩

/-- The path name of the written file leads to it. -/
theorem Written.follow (h : Written w fs fs')
    (hw : fs.walk true maxSymlinks (start cwd path) (components path) = some w)
    (hf : fs'.follow cwd path = some p) : p = w := by
  unfold FileSys.follow at hf
  split_ifs at hf
  obtain ⟨hwalk, -⟩ := Option.filter_eq_some_iff.mp hf
  by_contra hne
  have hbefore : fs.walk false maxSymlinks (start cwd path) (components path) = some p := by
    rcases h.same with helse | ⟨-, hback⟩
    · exact walk_elsewhere helse.symm hne hwalk
    · exact walk_of_keeps hback hwalk
  exact hne (Option.some.inj ((walk_create hbefore).symm.trans hw))

theorem Written.adjust (h : Written w fs fs') {f : Node → Node}
    (hf : ∀ x, (f x).kind = .directory ↔ x.kind = .directory)
    (hshape : ∀ x, shape (f x).kind = shape x.kind) : Written w fs (fs'.adjust w f hf) := by
  obtain ⟨x', hx', hnew, hold⟩ := h.here
  refine ⟨fun p hp => ?_, f x', ?_, fun hno => ?_, fun x hx => (hshape x').trans (hold x hx)⟩
  · rw [node_adjust, if_neg hp, h.node p hp]
  · rw [node_adjust, if_pos rfl, hx', Option.map_some]
  · obtain ⟨content, hk⟩ := hnew hno
    exact shape_eq_regular.mp ((hshape x').trans (shape_eq_regular.mpr ⟨content, hk⟩))

theorem shape_withContent (content : CString) (x : Node) :
    shape (withContent content x).kind = shape x.kind := by
  obtain ⟨kind, mode, uid, gid⟩ := x
  cases kind <;> rfl

/-- Opening a file for writing writes it. -/
theorem written_openWrite {mode uid gid : ℕ}
    (h : fs.openWrite cwd path mode uid gid = .ok (w, fs')) :
    fs.walk true maxSymlinks (start cwd path) (components path) = some w ∧ Written w fs fs' := by
  unfold FileSys.openWrite at h
  split_ifs at h
  rcases hw : fs.walk true maxSymlinks (start cwd path) (components path) with _ | _ | ⟨n, dir⟩
  · simp [hw] at h
  · simp [hw] at h
  simp only [hw] at h
  split_ifs at h with hdir hnone hparent
  · obtain ⟨rfl, rfl⟩ := Prod.mk.inj (Except.ok.inj h)
    refine ⟨rfl, fun p hp => ?_, ⟨.regular [], mode, uid, gid⟩, ?_, fun _ => ⟨[], rfl⟩,
      fun x hx => ?_⟩
    · rw [node_put, if_neg hp]
    · rw [node_put, if_pos rfl]
    · exact absurd (hnone.symm.trans hx) nofun
  · obtain ⟨rfl, rfl⟩ := Prod.mk.inj (Except.ok.inj h)
    obtain ⟨x, hx⟩ := Option.ne_none_iff_exists'.mp hnone
    have hself : Written (n :: dir) fs fs :=
      ⟨fun _ _ => rfl, x, hx, fun hno => absurd hno hnone, fun y hy => by
        rw [Option.some.inj (hx.symm.trans hy)]⟩
    exact ⟨rfl, hself.adjust _ (shape_withContent [])⟩

/-! ### The other places -/

theorem rename_elsewhere {old new : CString} (h : fs.rename cwd old new = .ok fs')
    (hold : FileSys.entry fs cwd old ≠ some p) (hnew : FileSys.entry fs cwd new ≠ some p) :
    fs'.node p = fs.node p := by
  unfold FileSys.rename at h
  split_ifs at h
  rcases hs : fs.locate cwd old with _ | e
  · simp [hs] at h
  rcases hd : fs.locate cwd new with _ | d
  · simp [hs, hd] at h
  have hpe : p ≠ e.place := fun hp => hold (entry_eq_some.mpr ⟨e, hs, hp.symm⟩)
  have hpd : p ≠ d.place := fun hp => hnew (entry_eq_some.mpr ⟨d, hd, hp.symm⟩)
  rcases hx : fs.node e.place with _ | x
  · simp [hs, hd, hx] at h
  simp only [hs, hd, hx] at h
  split_ifs at h
  · rw [Except.ok.inj h]
  · obtain rfl := Except.ok.inj h
    rw [node_put, if_neg (show p ≠ d.name :: d.dir from hpd), node_remove,
      if_neg (show p ≠ e.name :: e.dir from hpe)]

theorem unlink_elsewhere (h : fs.unlink cwd path = .ok fs')
    (hp : FileSys.entry fs cwd path ≠ some p) : fs'.node p = fs.node p := by
  obtain ⟨q, hq, -⟩ := unlink_entry h
  refine (unlink_ok hq h).1 p ?_
  rintro rfl
  exact hp hq

theorem rmdir_elsewhere (h : fs.rmdir cwd path = .ok fs')
    (hp : FileSys.entry fs cwd path ≠ some p) : fs'.node p = fs.node p := by
  obtain ⟨q, hq, -⟩ := rmdir_isDir h
  refine (rmdir_ok hq h).1 p ?_
  rintro rfl
  exact hp hq

end LuaAdaLoad.System.Writes
