import Mathlib.Data.List.TakeWhile
import LuaAdaLoad.Install.Translation
import LuaAdaLoad.Text.Dotted

/-!
# Base names

The base name of a path is its last component, without the slashes behind it; the base name of the
empty path is `.`, and that of a path of slashes is `/` (`posixBase`). `base_name` finds it by two
scans from the end (`baseNameOf_eq`); it keeps the length of the path in an `unsigned int`, so that it
sees only a part of a path of `2 ^ 32` characters or more.
-/

namespace LuaAdaLoad.Install.BaseNames

open LuaAdaLoad.System.Paths LuaAdaLoad.Install.Translation
open LuaAdaLoad.Text.Dotted (exists_last_sep)

/-- The base name of a path. -/
def posixBase (path : CString) : CString :=
  if path = [] then ['.']
  else match path.reverse.dropWhile fun c => c = '/' with
    | [] => ['/']
    | rest => (rest.takeWhile fun c => c ≠ '/').reverse

/-! ### The two scans -/

theorem skipSlashes_spec (dir : CString) (t : ℕ) : skipSlashes dir t ≤ t ∧
    (skipSlashes dir t = 0 ∨ dir[skipSlashes dir t]? ≠ some '/') ∧
    ∀ i, skipSlashes dir t < i → i ≤ t → dir[i]? = some '/' := by
  induction t with
  | zero => exact ⟨le_refl _, .inl rfl, fun i hi hle => by omega⟩
  | succ t ih =>
    rw [skipSlashes]
    split_ifs with hslash
    · refine ⟨ih.1.trans (Nat.le_succ t), ih.2.1, fun i hi hle => ?_⟩
      rcases Nat.le_succ_iff.mp hle with hle | rfl
      · exact ih.2.2 i hi hle
      · exact hslash
    · exact ⟨le_refl _, .inr hslash, fun i hi hle => by omega⟩

theorem blockStart_spec (dir : CString) (t : ℕ) : blockStart dir t ≤ t ∧
    (blockStart dir t = 0 ∨ dir[blockStart dir t - 1]? = some '/') ∧
    ∀ i, blockStart dir t ≤ i → i < t → dir[i]? ≠ some '/' := by
  induction t with
  | zero => exact ⟨le_refl _, .inl rfl, fun i _ hi => by omega⟩
  | succ t ih =>
    rw [blockStart]
    split_ifs with hslash
    · exact ⟨le_refl _, .inr hslash, fun i hi hlt => by omega⟩
    · refine ⟨ih.1.trans (Nat.le_succ t), ih.2.1, fun i hi hlt => ?_⟩
      rcases Nat.lt_succ_iff_lt_or_eq.mp hlt with hlt | rfl
      · exact ih.2.2 i hi hlt
      · exact hslash

/-- The base name ends in every block without slashes that has nothing but slashes behind it. -/
theorem posixBase_append {pre block post : CString} (hne : block ≠ []) (hblock : '/' ∉ block)
    (hpost : ∀ c ∈ post, c = '/') : posixBase (pre ++ block ++ post) =
      (pre.reverse.takeWhile fun c => c ≠ '/').reverse ++ block := by
  have hpath : pre ++ block ++ post ≠ [] := by simp [hne]
  have hskip : ∀ c ∈ post.reverse, decide (c = '/') = true := fun c hc => by
    simpa using hpost c (List.mem_reverse.mp hc)
  have hkeep : ∀ c ∈ block.reverse, decide (c ≠ '/') = true := fun c hc => by
    have hmem := List.mem_reverse.mp hc
    simpa using fun h : c = '/' => hblock (h ▸ hmem)
  have hdrop : (pre ++ block ++ post).reverse.dropWhile (fun c => c = '/') =
      block.reverse ++ pre.reverse := by
    rw [List.reverse_append, List.reverse_append, List.dropWhile_append_of_pos hskip]
    rcases hrev : block.reverse with _ | ⟨c, cs⟩
    · exact absurd (List.reverse_eq_nil_iff.mp hrev) hne
    · have hc : c ≠ '/' := by simpa using hkeep c (by rw [hrev]; exact List.mem_cons_self)
      rw [List.cons_append, List.dropWhile_cons_of_neg (by simpa using hc)]
  rw [posixBase, if_neg hpath, hdrop]
  rcases hrev : block.reverse ++ pre.reverse with _ | ⟨c, cs⟩
  · simp [hne] at hrev
  · simp only
    rw [← hrev, List.takeWhile_append_of_pos hkeep, List.reverse_append, List.reverse_reverse]

/-- A block without slashes, behind the start or a slash, and with nothing but slashes behind it. -/
theorem posixBase_of_block {pre block post : CString} (hne : block ≠ [])
    (hblock : '/' ∉ block) (hpre : pre = [] ∨ pre.getLast? = some '/')
    (hpost : ∀ c ∈ post, c = '/') : posixBase (pre ++ block ++ post) = block := by
  have hnone : (pre.reverse.takeWhile fun c => c ≠ '/') = [] := by
    rcases hpre with rfl | hlast
    · rfl
    · rw [← List.head?_reverse] at hlast
      rcases hrev : pre.reverse with _ | ⟨c, cs⟩
      · rfl
      · rw [hrev] at hlast
        obtain rfl : c = '/' := by simpa using hlast
        simp
  rw [posixBase_append hne hblock hpost, hnone]
  rfl

theorem posixBase_of_slashes {path : CString} (hne : path ≠ []) (h : ∀ c ∈ path, c = '/') :
    posixBase path = ['/'] := by
  have hdrop : path.reverse.dropWhile (fun c => c = '/') = [] := by
    rw [List.dropWhile_eq_nil_iff]
    intro c hc
    simpa using h c (List.mem_reverse.mp hc)
  rw [posixBase, if_neg hne, hdrop]

/-- A path that holds more than slashes has a last component. -/
theorem exists_block {path : CString} (h : ∃ c ∈ path, c ≠ '/') :
    ∃ pre block post, path = pre ++ block ++ post ∧ block ≠ [] ∧ '/' ∉ block ∧
      (pre = [] ∨ pre.getLast? = some '/') ∧ ∀ c ∈ post, c = '/' := by
  induction path using List.reverseRecOn with
  | nil =>
    obtain ⟨c, hc, -⟩ := h
    exact absurd hc List.not_mem_nil
  | append_singleton path c ih =>
    by_cases hc : c = '/'
    · obtain ⟨d, hd, hne⟩ := h
      have hd : d ∈ path := (List.mem_append.mp hd).resolve_right fun hmem =>
        hne ((List.mem_singleton.mp hmem).trans hc)
      obtain ⟨pre, block, post, rfl, hblock, hslash, hpre, hpost⟩ := ih ⟨d, hd, hne⟩
      refine ⟨pre, block, post ++ [c], by simp, hblock, hslash, hpre, fun x hx => ?_⟩
      rcases List.mem_append.mp hx with hx | hx
      · exact hpost x hx
      · exact (List.mem_singleton.mp hx).trans hc
    · have hlast : ∀ b : CString, '/' ∉ b → '/' ∉ b ++ [c] := fun b hb hmem => by
        rcases List.mem_append.mp hmem with hmem | hmem
        · exact hb hmem
        · exact hc (List.mem_singleton.mp hmem).symm
      by_cases hmem : '/' ∈ path
      · obtain ⟨a, b, rfl, hb⟩ := exists_last_sep hmem
        exact ⟨a ++ ['/'], b ++ [c], [], by simp, by simp, hlast b hb, .inr (by simp), by simp⟩
      · exact ⟨[], path ++ [c], [], by simp, by simp, hlast path hmem, .inl rfl, by simp⟩

/-- What POSIX calls the base name of a path: `.` for the empty path, `/` for slashes only, else the
longest block without slashes that is followed only by slashes. -/
inductive IsBase : CString → CString → Prop
  | empty : IsBase [] ['.']
  | root {path : CString} (ne_nil : path ≠ []) (slashes : ∀ c ∈ path, c = '/') : IsBase path ['/']
  | block {pre base post : CString} (more : ∃ c ∈ pre ++ base ++ post, c ≠ '/')
      (noSlash : '/' ∉ base) (slashes : ∀ c ∈ post, c = '/')
      (longest : ∀ pre' base' post' : CString, pre ++ base ++ post = pre' ++ base' ++ post' →
        '/' ∉ base' → (∀ c ∈ post', c = '/') → base'.length ≤ base.length) :
      IsBase (pre ++ base ++ post) base

/-- The base name of the empty path, of a path of slashes, of any other path. -/
theorem posixBase_cases (path : CString) :
    path = [] ∧ posixBase path = ['.'] ∨
    path ≠ [] ∧ (∀ c ∈ path, c = '/') ∧ posixBase path = ['/'] ∨
    ∃ pre post, path = pre ++ posixBase path ++ post ∧ posixBase path ≠ [] ∧
      '/' ∉ posixBase path ∧ ∀ c ∈ post, c = '/' := by
  by_cases hnil : path = []
  · exact .inl ⟨hnil, by rw [hnil]; rfl⟩
  by_cases hmore : ∃ c ∈ path, c ≠ '/'
  · obtain ⟨pre, block, post, rfl, hne, hblock, hpre, hpost⟩ := exists_block hmore
    have hbase := posixBase_of_block hne hblock hpre hpost
    refine .inr (.inr ⟨pre, post, ?_⟩)
    rw [hbase]
    exact ⟨rfl, hne, hblock, hpost⟩
  · have hslashes : ∀ c ∈ path, c = '/' := fun c hc => not_not.mp fun hne => hmore ⟨c, hc, hne⟩
    exact .inr (.inl ⟨hnil, hslashes, posixBase_of_slashes hnil hslashes⟩)

/-- **The base name** is the one of POSIX. -/
theorem posixBase_isBase (path : CString) : IsBase path (posixBase path) := by
  rcases posixBase_cases path with ⟨rfl, hbase⟩ | ⟨hnil, hslashes, hbase⟩ |
    ⟨pre, post, hpath, hne, hslash, hpost⟩
  · exact .empty
  · rw [hbase]
    exact .root hnil hslashes
  · generalize hbase : posixBase path = base at *
    subst hpath
    obtain ⟨c, hc⟩ := List.exists_mem_of_ne_nil base hne
    have hmore : ∃ c ∈ pre ++ base ++ post, c ≠ '/' :=
      ⟨c, by simp [hc], fun h => hslash (h ▸ hc)⟩
    refine .block hmore hslash hpost fun pre' base' post' hsplit hslash' hpost' => ?_
    by_cases hne' : base' = []
    · rw [hne']
      exact Nat.zero_le _
    · rw [hsplit, posixBase_append hne' hslash' hpost'] at hbase
      rw [← hbase, List.length_append]
      exact Nat.le_add_left _ _

/-- A base name is its own base name. -/
theorem posixBase_idem (path : CString) : posixBase (posixBase path) = posixBase path := by
  rcases posixBase_cases path with ⟨-, hbase⟩ | ⟨-, -, hbase⟩ | ⟨pre, post, -, hne, hslash, -⟩
  · rw [hbase]
    decide
  · rw [hbase]
    decide
  · have hself : posixBase ([] ++ posixBase path ++ []) = posixBase path :=
      posixBase_of_block hne hslash (.inl rfl) (by simp)
    rwa [List.nil_append, List.append_nil] at hself

theorem mem_posixBase {path : CString} {c : Char} (hc : c ∈ posixBase path) :
    c ∈ path ∨ c = '.' ∨ c = '/' := by
  rcases posixBase_cases path with ⟨-, hbase⟩ | ⟨-, -, hbase⟩ | ⟨pre, post, hpath, -⟩
  · rw [hbase] at hc
    exact .inr (.inl (List.mem_singleton.mp hc))
  · rw [hbase] at hc
    exact .inr (.inr (List.mem_singleton.mp hc))
  · rw [hpath]
    exact .inl (List.mem_append_left _ (List.mem_append_right _ hc))

/-- What stands before, in and behind the block from `u` to `t`. -/
theorem split_block (path : CString) {u t : ℕ} (h : u ≤ t) :
    path = path.take u ++ (path.drop u).take (t - u + 1) ++ path.drop (t + 1) := by
  have hdrop : path.drop (t + 1) = (path.drop u).drop (t - u + 1) := by
    rw [List.drop_drop]
    congr 1
    omega
  rw [hdrop, List.append_assoc, List.take_append_drop, List.take_append_drop]

/-- **`base_name` computes the base name** of a path of less than `2 ^ 32` characters, if it computes
anything. -/
theorem baseNameOf_eq {path base : CString} (hlen : path.length < 2 ^ 32)
    (h : baseNameOf path = some base) : base = posixBase path := by
  simp only [baseNameOf, Nat.mod_eq_of_lt hlen] at h
  split_ifs at h with hzero hlong hroot
  · obtain rfl := List.length_eq_zero_iff.mp hzero
    exact (Option.some.inj h).symm
  · have hslashes : ∀ c ∈ path, c = '/' := fun c hc => by
      obtain ⟨i, hi, rfl⟩ := List.mem_iff_getElem.mp hc
      have hget : path[i]? = some '/' := by
        rcases Nat.eq_zero_or_pos i with rfl | hpos
        · exact hroot.1 ▸ hroot.2
        · exact (skipSlashes_spec path (path.length - 1)).2.2 i (by omega) (by omega)
      exact Option.some.inj ((List.getElem?_eq_getElem hi).symm.trans hget)
    rw [posixBase_of_slashes (by simpa using hzero) hslashes, Option.some.inj h]
  · obtain ⟨hle, hend, hpost⟩ := skipSlashes_spec path (path.length - 1)
    obtain ⟨hstart, hpre, hblock⟩ := blockStart_spec path (skipSlashes path (path.length - 1))
    generalize skipSlashes path (path.length - 1) = t at *
    generalize blockStart path t = u at *
    have hlast : path[t]? ≠ some '/' := by
      rcases hend with rfl | hend
      · exact fun hslash => hroot ⟨rfl, hslash⟩
      · exact hend
    obtain rfl := Option.some.inj h
    conv_rhs => rw [split_block path hstart]
    refine (posixBase_of_block ?_ (fun hmem => ?_) ?_ fun c hc => ?_).symm
    · intro hnil
      have := congrArg List.length hnil
      simp at this
      omega
    · obtain ⟨i, hi, hget⟩ := List.mem_iff_getElem.mp hmem
      have hle : u + i ≤ t := by
        simp at hi
        omega
      have hslash : path[u + i]? = some '/' := by
        rw [List.getElem_take, List.getElem_drop] at hget
        rw [List.getElem?_eq_getElem (by omega), hget]
      rcases Nat.lt_or_eq_of_le hle with hlt | heq
      · exact hblock _ (by omega) hlt hslash
      · exact hlast (heq ▸ hslash)
    · rcases hpre with rfl | hpre
      · exact .inl rfl
      · rcases Nat.eq_zero_or_pos u with rfl | hpos
        · exact .inl rfl
        · refine .inr ?_
          rw [List.getLast?_take, if_neg (by omega), hpre]
          rfl
    · obtain ⟨i, hi, rfl⟩ := List.mem_iff_getElem.mp hc
      have hlt : t + 1 + i < path.length := by
        simp at hi
        omega
      have hget := hpost (t + 1 + i) (by omega) (by omega)
      rw [List.getElem?_eq_getElem hlt] at hget
      rw [List.getElem_drop]
      exact Option.some.inj hget

/-- The base name of a relative path name is relative, and not empty. -/
theorem baseNameOf_relative {dir base : CString} (h : baseNameOf dir = some base)
    (hrel : ¬ Absolute dir) : ∃ c cs, base = c :: cs ∧ c ≠ '/' := by
  simp only [baseNameOf] at h
  have hmod := Nat.mod_le dir.length (2 ^ 32)
  generalize dir.length % 2 ^ 32 = len at h hmod
  have hhead : dir[0]? ≠ some '/' := fun hd => hrel (List.head?_eq_getElem?.trans hd)
  split_ifs at h with hzero hlong hroot
  · obtain rfl := Option.some.inj h
    exact ⟨'.', [], rfl, by decide⟩
  · exact absurd hroot.2 (hroot.1 ▸ hhead)
  · obtain ⟨hle, hend, -⟩ := skipSlashes_spec dir (len - 1)
    obtain ⟨hstart, -, hblock⟩ := blockStart_spec dir (skipSlashes dir (len - 1))
    generalize skipSlashes dir (len - 1) = t at *
    generalize blockStart dir t = u at *
    have hlt : u < dir.length := by omega
    have hu : dir[u]? ≠ some '/' := by
      rcases Nat.lt_or_eq_of_le hstart with hut | rfl
      · exact hblock u (le_refl _) hut
      · rcases hend with hz | hend
        · exact hz ▸ hhead
        · exact hend
    have hcons : dir.drop u = dir[u] :: dir.drop (u + 1) := List.drop_eq_getElem_cons hlt
    refine ⟨dir[u], (dir.drop (u + 1)).take (t - u), ?_, fun hc => hu ?_⟩
    · rw [← Option.some.inj h, hcons, List.take_succ_cons]
    · rw [List.getElem?_eq_getElem hlt, hc]

end LuaAdaLoad.Install.BaseNames
