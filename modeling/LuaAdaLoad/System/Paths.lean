import Mathlib.Tactic

/-!
# Path names

A path name is a list of characters; its components stand between slashes. A `Name` is a component
that an entry of a directory can have: it is not empty, holds no slash and is not `.` or `..`. A
`Place` in a file system is the list of the names on the way up to the root, its own name first.
-/

namespace LuaAdaLoad.System.Paths

/-- A string of C: the bytes before the terminating zero, as characters. -/
abbrev CString := List Char

/-- The names of directory entries. -/
structure Name where
  chars : CString
  ne_nil : chars ≠ []
  noSlash : '/' ∉ chars
  ne_dot : chars ≠ ['.']
  ne_dots : chars ≠ ['.', '.']
deriving DecidableEq

/-- A component of a path name: `.`, `..` or a name. -/
inductive Component where
  | here
  | up
  | name (n : Name)
deriving DecidableEq

/-- A place in a file system, the innermost name first; the root is `[]`. -/
abbrev Place := List Name

/-- The component that the characters between two slashes are; nothing between slashes is none. -/
def component (chars : CString) : Option Component :=
  if hn : chars = [] then none
  else if hd : chars = ['.'] then some .here
  else if hu : chars = ['.', '.'] then some .up
  else if hs : '/' ∈ chars then none
  else some (.name ⟨chars, hn, hs, hd, hu⟩)

/-- The components of a path name. -/
def components (path : CString) : List Component := (path.splitOn '/').filterMap component

/-- A path name that starts at the root. -/
def Absolute (path : CString) : Prop := path.head? = some '/'

instance (path : CString) : Decidable (Absolute path) := by unfold Absolute; infer_instance

/-- The path name `dir/path`. -/
def joined (dir path : CString) : CString := dir ++ '/' :: path

/-- The absolute path name of a place. -/
def absolutePath : Place → CString
  | [] => ['/']
  | p => p.reverse.flatMap fun n => '/' :: n.chars

/-! ### Components -/

@[simp] theorem components_nil : components [] = [] := rfl

/-- A slash separates components. -/
theorem components_joined (dir path : CString) :
    components (joined dir path) = components dir ++ components path := by
  rw [components, joined, List.splitOn_append_cons_self, List.filterMap_append]
  rfl

theorem components_slash (dir : CString) : components (dir ++ ['/']) = components dir := by
  simpa [joined] using components_joined dir []

theorem component_name (n : Name) : component n.chars = some (.name n) := by
  simp [component, n.ne_nil, n.noSlash, n.ne_dot, n.ne_dots]

theorem component_eq_name {chars : CString} {n : Name} (h : component chars = some (.name n)) :
    n.chars = chars := by
  unfold component at h
  split_ifs at h
  · simp at h
  · simp at h
  · exact congrArg Name.chars (Component.name.inj (Option.some.inj h)).symm

theorem component_eq_none {chars : CString} (hslash : '/' ∉ chars) (h : component chars = none) :
    chars = [] := by
  unfold component at h
  split_ifs at h with hnil
  exact hnil

theorem components_chunk {chunk : CString} (h : '/' ∉ chunk) :
    components chunk = (component chunk).toList := by
  rw [components, List.splitOn_eq_singleton h]
  rcases hc : component chunk with _ | c <;> simp [hc]

theorem components_name (n : Name) : components n.chars = [.name n] := by
  rw [components, List.splitOn_eq_singleton n.noSlash]
  simp [component_name]

theorem components_flatMap (ns : List Name) :
    components (ns.flatMap fun n => '/' :: n.chars) = ns.map .name := by
  induction ns using List.reverseRecOn with
  | nil => rfl
  | append_singleton ns n ih =>
    have hjoin : (ns ++ [n]).flatMap (fun n => '/' :: n.chars) =
        joined (ns.flatMap fun n => '/' :: n.chars) n.chars := by
      simp [joined]
    rw [hjoin, components_joined, ih, components_name, List.map_append, List.map_singleton]

/-- The absolute path name of a place leads down to it. -/
theorem components_absolutePath (p : Place) :
    components (absolutePath p) = p.reverse.map .name := by
  cases p with
  | nil => exact components_slash []
  | cons n p => exact components_flatMap _

theorem absolute_absolutePath (p : Place) : Absolute (absolutePath p) := by
  rcases hp : p.reverse with _ | ⟨n, ns⟩
  · obtain rfl : p = [] := by simpa using hp
    rfl
  · cases p with
    | nil => rfl
    | cons m p => simp [Absolute, absolutePath, hp]

/-- A relative path name has a component. -/
theorem components_relative {path : CString} (hnil : path ≠ []) (hrel : ¬ Absolute path) :
    components path ≠ [] := by
  by_cases hmem : '/' ∈ path
  · obtain ⟨chunk, rest, rfl, hchunk⟩ := List.eq_append_cons_of_mem hmem
    have hne : chunk ≠ [] := by
      rintro rfl
      exact hrel rfl
    rw [show chunk ++ '/' :: rest = joined chunk rest from rfl, components_joined,
      components_chunk hchunk]
    rcases hc : component chunk with _ | c
    · exact absurd (component_eq_none hchunk hc) hne
    · simp
  · rw [components_chunk hmem]
    rcases hc : component path with _ | c
    · exact absurd (component_eq_none hmem hc) hnil
    · simp

/-- `dir/path` starts where `dir` starts. -/
theorem absolute_joined {dir : CString} (hdir : dir ≠ []) (path : CString) :
    Absolute (joined dir path) ↔ Absolute dir := by
  cases dir with
  | nil => exact absurd rfl hdir
  | cons c dir => rfl

example : components "/usr//./lib/../x/".toList =
    [.name ⟨['u', 's', 'r'], by decide, by decide, by decide, by decide⟩, .here,
      .name ⟨['l', 'i', 'b'], by decide, by decide, by decide, by decide⟩, .up,
      .name ⟨['x'], by decide, by decide, by decide, by decide⟩] := by decide

end LuaAdaLoad.System.Paths
