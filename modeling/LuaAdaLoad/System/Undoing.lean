import LuaAdaLoad.System.Removals

/-!
# Undoing what was done last first

A file system grows step by step: a file is put at a place (`Puts`), or a directory is opened with
those above it that are missing (`Opens`). Then the steps are undone, the last one first: the file is
taken away, or the directory if it is empty. Some directories are *listed*, those that are opened
along with another one are not. `Undoes` relates what was there before a step to what is there when
this step and all later ones are undone.
-/

namespace LuaAdaLoad.System.Undoing

open LuaAdaLoad.System.Paths LuaAdaLoad.System.FileSystem LuaAdaLoad.System.Walks
open LuaAdaLoad.System.Removals

variable {fs₀ fs s s' u u' : FileSys} {listed later : Place → Prop} {p d : Place}

/-! ### Steps -/

/-- A file that is no directory is put at a place where there is no link. -/
structure Puts (p : Place) (s s' : FileSys) : Prop where
  keeps : Keeps s s'
  other : ∀ q, q ≠ p → s'.node q = s.node q
  there : s'.node p ≠ none
  notDir : ¬ IsDir (s'.node p)
  noLink : ∀ x target, s.node p = some x → x.kind ≠ .symlink target

/-- A directory is opened, and perhaps some above it. -/
structure Opens (d : Place) (s s' : FileSys) : Prop where
  keeps : ∀ q x, s.node q = some x → ∃ x', s'.node q = some x' ∧ x'.kind = x.kind
  made : ∀ q, s'.node q ≠ none → s.node q = none → IsDir (s'.node q) ∧ q <:+ d

theorem Opens.toKeeps (h : Opens d s s') : Keeps s s' := fun q x hx => by
  obtain ⟨x', hx', hk⟩ := h.keeps q x hx
  exact ⟨x', hx', congrArg shape hk⟩

/-- Where the last place is no directory, nothing was made. -/
theorem Opens.nothing_made (h : Opens d s s') (hd : s'.node d ≠ none) (hdir : ¬ IsDir (s'.node d))
    {q : Place} (hq : s'.node q ≠ none) : s.node q ≠ none := fun hno => by
  have hsuffix := (h.made q hq hno).2
  exact hdir (h.made d hd (node_below hno hsuffix)).1

/-- Whenever a directory of the list is above another one, it and every directory strictly between
them come before the lower one. -/
def ParentsFirst (ds : List Place) : Prop :=
  ∀ before d after, ds = before ++ d :: after →
    ∀ d' ∈ ds, ∀ q, d' <:+ q → q <:+ d → q ≠ d → q ∈ before

instance (p : Place) (ds : List Place) : Decidable (p ∈ ds) := inferInstance

theorem parentsFirst_iff {ds : List Place} : ParentsFirst ds ↔ ∀ i : Fin ds.length, ∀ d' ∈ ds,
    ∀ q ∈ ds[i].tails, d' <:+ q → q ≠ ds[i] → q ∈ ds.take i := by
  constructor
  · intro h i d' hd' q hq hdq hne
    refine h (ds.take i) ds[i] (ds.drop (i + 1)) ?_ d' hd' q hdq ((List.mem_tails q ds[i]).mp hq) hne
    rw [Fin.getElem_fin, List.getElem_cons_drop, List.take_append_drop]
  · rintro h before d after rfl d' hd' q hdq hqd hne
    have h := h ⟨before.length, by simp⟩ d' hd' q
    simp only [Fin.getElem_fin, List.getElem_append_right (Nat.le_refl _), Nat.sub_self,
      List.getElem_cons_zero, List.take_left', List.mem_tails] at h
    exact h hqd hdq hne

instance (ds : List Place) : Decidable (ParentsFirst ds) := decidable_of_iff _ parentsFirst_iff.symm

/-! ### What is there when a step is undone -/

/-- All is undone from the step that was made in `s` on, and `u` is there; `fs` was there at last.
Only what stood at `later` places was taken away. -/
structure Undoes (listed later : Place → Prop) (fs s u : FileSys) : Prop where
  part : ∀ p x, u.node p = some x → fs.node p = some x
  frame : ∀ p, ¬ later p → u.node p = fs.node p
  links : ∀ p x target, s.node p = some x → x.kind = .symlink target → u.node p ≠ none
  loose : ∀ p, u.node p ≠ none → s.node p = none →
    IsDir (fs.node p) ∧ ∀ d, listed d → ¬ d <:+ p

/-- Nothing is undone yet. -/
theorem undoes_refl (fs : FileSys) : Undoes listed later fs fs fs where
  part _ _ hx := hx
  frame _ _ := rfl
  links p x target hx _ := by simp [hx]
  loose p hp hno := absurd hno hp

theorem Undoes.keeps (h : Undoes listed later fs s u) : Keeps u fs := fun p x hx =>
  ⟨x, h.part p x hx, rfl⟩

theorem Undoes.toLinks (h : Undoes listed later fs s u) (hs : Keeps s fs) : Links s u where
  shape p x x' hx hx' := by
    obtain ⟨y, hy, hshape⟩ := hs p x hx
    obtain rfl := Option.some.inj ((h.part p x' hx').symm.trans hy)
    exact hshape
  link p x target hx hk := h.links p x target hx hk

/-- The file is taken away, or it was gone already. -/
theorem Undoes.unput {later' : Place → Prop} (h : Undoes listed later fs s' u) (hput : Puts p s s')
    (hlater : ∀ q, q = p ∨ later q → later' q) (hgone : u'.node p = none)
    (hother : ∀ q, q ≠ p → u'.node q = u.node q) : Undoes listed later' fs s u' where
  part q x hx := by
    have hq : q ≠ p := by
      rintro rfl
      simp [hgone] at hx
    exact h.part q x (by rwa [← hother q hq])
  frame q hq := by
    rw [hother q fun hqp => hq (hlater q (.inl hqp))]
    exact h.frame q fun hl => hq (hlater q (.inr hl))
  links q x target hx hk := by
    have hq : q ≠ p := by
      rintro rfl
      exact hput.noLink x target hx hk
    rw [hother q hq]
    exact h.links q x target (by rwa [hput.other q hq]) hk
  loose q hq hno := by
    have hne : q ≠ p := by
      rintro rfl
      exact hq hgone
    exact h.loose q (by rwa [← hother q hne]) (by rwa [hput.other q hne])

/-- Nothing is in a directory that was opened, when all later steps are undone. -/
theorem Undoes.vacant (h : Undoes listed later fs s' u) (hopen : Opens d s s') (hlisted : listed d)
    (hnew : s.node d = none) (m : Name) : u.node (m :: d) = none := by
  by_contra hm
  have hno : s.node (m :: d) = none := node_below hnew (List.suffix_cons m d)
  by_cases hs' : s'.node (m :: d) = none
  · exact (h.loose _ hm hs').2 d hlisted (List.suffix_cons m d)
  · have hlen := (hopen.made _ hs' hno).2.length_le
    simp at hlen

/-- The directory is taken away, or it stays; it does not stay if it was new. -/
theorem Undoes.unopen {later' : Place → Prop} (h : Undoes listed later fs s' u)
    (hopen : Opens d s s') (hfs : Keeps s' fs) (hdir : IsDir (s'.node d))
    (horder : ∀ q, q <:+ d → q ≠ d → s.node q = none → ∀ d', listed d' → ¬ d' <:+ q)
    (hlater : ∀ q, q = d ∨ later q → later' q)
    (hother : ∀ q, q ≠ d → u'.node q = u.node q)
    (hend : u'.node d = none ∨ s.node d ≠ none ∧ u'.node d = u.node d) :
    Undoes listed later' fs s u' where
  part q x hx := by
    by_cases hq : q = d
    · subst hq
      rcases hend with hgone | ⟨-, hsame⟩
      · simp [hgone] at hx
      · exact h.part q x (by rwa [← hsame])
    · exact h.part q x (by rwa [← hother q hq])
  frame q hq := by
    rw [hother q fun hqd => hq (hlater q (.inl hqd))]
    exact h.frame q fun hl => hq (hlater q (.inr hl))
  links q x target hx hk := by
    obtain ⟨x', hx', hk'⟩ := hopen.keeps q x hx
    have hq : q ≠ d := by
      rintro rfl
      obtain ⟨y, hy, hdirectory⟩ := isDir_iff.mp hdir
      obtain rfl := Option.some.inj (hx'.symm.trans hy)
      simp [hk', hk] at hdirectory
    rw [hother q hq]
    exact h.links q x' target hx' (hk'.trans hk)
  loose q hq hno := by
    have hne : q ≠ d := by
      rintro rfl
      rcases hend with hgone | ⟨hthere, -⟩
      · exact hq hgone
      · exact hthere hno
    rw [hother q hne] at hq
    by_cases hs' : s'.node q = none
    · exact h.loose q hq hs'
    · obtain ⟨hisDir, hsuffix⟩ := hopen.made q hs' hno
      exact ⟨hfs.isDir hisDir, horder q hsuffix hne hno⟩

/-- A step that opened nothing is undone by doing nothing. -/
theorem Undoes.unchanged {later' : Place → Prop} (h : Undoes listed later fs s' u)
    (hopen : Opens d s s') (hnothing : ∀ q, s'.node q ≠ none → s.node q ≠ none)
    (hlater : ∀ q, later q → later' q) : Undoes listed later' fs s u where
  part := h.part
  frame q hq := h.frame q fun hl => hq (hlater q hl)
  links q x target hx hk := by
    obtain ⟨x', hx', hk'⟩ := hopen.keeps q x hx
    exact h.links q x' target hx' (hk'.trans hk)
  loose q hq hno := h.loose q hq (by
    by_contra hs'
    exact hnothing q hs' hno)

/-! ### When all is undone -/

/-- A listed directory that is new is gone. -/
theorem Undoes.listed_gone (h : Undoes listed later fs fs₀ u) (hlisted : listed d)
    (hnew : fs₀.node d = none) : u.node d = none := by
  by_contra hd
  exact (h.loose d hd hnew).2 d hlisted List.suffix_rfl

/-- A file that is new is gone. -/
theorem Undoes.file_gone (h : Undoes listed later fs fs₀ u) (hfile : ¬ IsDir (fs.node p))
    (hnew : fs₀.node p = none) : u.node p = none := by
  by_contra hp
  exact hfile (h.loose p hp hnew).1

/-- **Of what was there at first only listed directories are gone**, and with each of them only
listed directories. -/
theorem Undoes.only_listed (h : Undoes listed later fs fs₀ u) (hfs : Keeps fs₀ fs)
    (hlater : ∀ q, later q → listed q ∨ fs₀.node q = none) {q : Place} (hgone : u.node p = none)
    (hpq : p <:+ q) (hq : fs₀.node q ≠ none) : listed q := by
  by_contra hno
  have hframe := h.frame q fun hl => (hlater q hl).elim hno hq
  exact hfs.there hq (hframe.symm.trans (node_below hgone hpq))

end LuaAdaLoad.System.Undoing
