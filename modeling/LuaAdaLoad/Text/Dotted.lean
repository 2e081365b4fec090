import Mathlib.Tactic
import Mathlib.Data.List.DropRight

/-!
# Separated paths

A path is a list of symbols in which components are separated by the symbol `sep`. `extend` adds a
component at the end, with a separator unless the path is empty; `cutLast` cuts at the last
separator. Cutting does not undo every extension: `cutLast_extend_iff` says exactly when it does.
On plain components (not empty, no separator in them) the two are inverse (`cutLast_joined`), and
the components can be read off the path again (`components_joined`).
-/

namespace LuaAdaLoad.Text.Dotted

variable {α : Type} (sep : α)

/-- Add a component at the end of a path. -/
def extend (path name : List α) : List α :=
  if path.length ≠ 0 then path ++ sep :: name else name

/-- The part of a path before its last separator; nothing if there is no separator. -/
def cutLast [DecidableEq α] (path : List α) : List α :=
  (path.rdropWhile fun a => decide (a ≠ sep)).dropLast

/-- Cutting at the last separator undoes the addition of `name` to `path`. -/
def Undone (path name : List α) : Prop :=
  if path = [] then sep ∉ name.tail else sep ∉ name

instance [DecidableEq α] (path name : List α) : Decidable (Undone sep path name) := by
  unfold Undone; infer_instance

/-- A component that is not empty and holds no separator. -/
def Plain (name : List α) : Prop := name ≠ [] ∧ sep ∉ name

instance [DecidableEq α] (name : List α) : Decidable (Plain sep name) := by
  unfold Plain; infer_instance

/-- The path of a list of components. -/
def joined (names : List (List α)) : List α := names.foldl (extend sep) []

/-- The components of a path. -/
def components [DecidableEq α] (path : List α) : List (List α) :=
  if path = [] then [] else path.splitOn sep

variable {sep}

theorem extend_nil (name : List α) : extend sep [] name = name := by simp [extend]

theorem extend_of_ne_nil {path : List α} (h : path ≠ []) (name : List α) :
    extend sep path name = path ++ sep :: name := by
  simp [extend, h]

theorem extend_ne_nil {path name : List α} (h : name ≠ []) : extend sep path name ≠ [] := by
  by_cases hp : path = []
  · rw [hp, extend_nil]; exact h
  · rw [extend_of_ne_nil hp]; simp

theorem Plain.undone {name : List α} (h : Plain sep name) (path : List α) :
    Undone sep path name := by
  unfold Undone
  split_ifs
  · exact fun hc => h.2 (List.mem_of_mem_tail hc)
  · exact h.2

/-- The path of one component more. -/
theorem joined_append (names : List (List α)) (name : List α) :
    joined sep (names ++ [name]) = extend sep (joined sep names) name := by
  simp [joined]

theorem joined_ne_nil {names : List (List α)} (hne : names ≠ [])
    (h : ∀ x ∈ names, Plain sep x) : joined sep names ≠ [] := by
  induction names using List.reverseRecOn with
  | nil => exact absurd rfl hne
  | append_singleton names x _ =>
    rw [joined_append]
    exact extend_ne_nil (h x (by simp)).1

/-! ### Cutting at the last separator -/

variable [DecidableEq α]

theorem rdropWhile_ne {a b : List α} (h : sep ∉ b) :
    (a ++ b).rdropWhile (fun x => decide (x ≠ sep)) =
      a.rdropWhile fun x => decide (x ≠ sep) := by
  induction b using List.reverseRecOn with
  | nil => rw [List.append_nil]
  | append_singleton b x ih =>
    simp only [List.mem_append, List.mem_singleton, not_or] at h
    rw [← List.append_assoc, List.rdropWhile_concat_pos _ _ _ (by simpa using Ne.symm h.2), ih h.1]

theorem cutLast_append {a b : List α} (h : sep ∉ b) : cutLast sep (a ++ sep :: b) = a := by
  unfold cutLast
  rw [← List.singleton_append, ← List.append_assoc, rdropWhile_ne h,
    List.rdropWhile_concat_neg _ _ _ (by simp), List.dropLast_concat]

theorem cutLast_of_notMem {a : List α} (h : sep ∉ a) : cutLast sep a = [] := by
  have := rdropWhile_ne (a := []) h
  rw [List.nil_append, List.rdropWhile_nil] at this
  unfold cutLast
  rw [this]; rfl

/-- A list that holds the separator has a last one. -/
theorem exists_last_sep : ∀ {l : List α}, sep ∈ l → ∃ a b, l = a ++ sep :: b ∧ sep ∉ b
  | x :: l, h => by
    by_cases hl : sep ∈ l
    · obtain ⟨a, b, rfl, hb⟩ := exists_last_sep hl
      exact ⟨x :: a, b, rfl, hb⟩
    · have hx : sep = x := (List.mem_cons.mp h).resolve_right hl
      exact ⟨[], l, by rw [hx]; rfl, hl⟩

/-- **Cutting undoes an extension** exactly when the new component holds no separator, but that an
empty path can take one in front. -/
theorem cutLast_extend_iff (path name : List α) :
    cutLast sep (extend sep path name) = path ↔ Undone sep path name := by
  unfold Undone
  by_cases hp : path = []
  · subst hp
    rw [if_pos rfl, extend_nil]
    cases name with
    | nil => simp [cutLast]
    | cons x name =>
      rw [List.tail_cons]
      by_cases hn : sep ∈ name
      · obtain ⟨a, b, rfl, hb⟩ := exists_last_sep hn
        rw [← List.cons_append, cutLast_append hb]; simp
      · by_cases hx : sep = x
        · have := cutLast_append (a := []) hn
          rw [List.nil_append, hx] at this
          rw [hx] at hn ⊢
          simpa [hn] using this
        · rw [cutLast_of_notMem (by simp [hx, hn])]; simp [hn]
  · rw [if_neg hp, extend_of_ne_nil hp]
    by_cases hn : sep ∈ name
    · obtain ⟨a, b, rfl, hb⟩ := exists_last_sep hn
      have hsplit : path ++ sep :: (a ++ sep :: b) = (path ++ sep :: a) ++ sep :: b := by simp
      rw [hsplit, cutLast_append hb]; simp
    · rw [cutLast_append hn]; simp [hn]

/-! ### Paths of plain components -/

/-- Cutting takes the last component away. -/
theorem cutLast_joined {names : List (List α)} {name : List α} (h : Plain sep name) :
    cutLast sep (joined sep (names ++ [name])) = joined sep names := by
  rw [joined_append, cutLast_extend_iff]
  exact h.undone _

/-- **The components of a path** of plain components. -/
theorem components_joined {names : List (List α)} (h : ∀ x ∈ names, Plain sep x) :
    components sep (joined sep names) = names := by
  induction names using List.reverseRecOn with
  | nil => simp [components, joined]
  | append_singleton names x ih =>
    have hx : Plain sep x := h x (by simp)
    have hns : ∀ y ∈ names, Plain sep y := fun y hy => h y (by simp [hy])
    have ih := ih hns
    have hne : joined sep (names ++ [x]) ≠ [] := joined_ne_nil (by simp) h
    unfold components at ih ⊢
    rw [if_neg hne, joined_append]
    by_cases hnil : names = []
    · subst hnil
      rw [show joined sep ([] : List (List α)) = [] from rfl, extend_nil,
        List.splitOn_eq_singleton hx.2]
      rfl
    · rw [if_neg (joined_ne_nil hnil hns)] at ih
      rw [extend_of_ne_nil (joined_ne_nil hnil hns), List.splitOn_append_cons_self, ih,
        List.splitOn_eq_singleton hx.2]

end LuaAdaLoad.Text.Dotted
