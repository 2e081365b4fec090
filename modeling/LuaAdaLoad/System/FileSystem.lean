import LuaAdaLoad.System.Paths

/-!
# File systems

A file system says what stands at each place. The root is a directory, and whatever exists stands in
a directory: both facts are fields, so that the operations have to keep them. `walk` resolves the
components of a path name and follows symbolic links, a limited number of them; `locate` finds the
entry that a path name names without following it.

Every operation is one of `put`, `remove` and `adjust` at one place; `node_put`, `node_remove` and
`node_adjust` say what it does there and that it leaves all other places alone.
-/

namespace LuaAdaLoad.System.FileSystem

open LuaAdaLoad.System.Paths

/-- The kinds of files. -/
inductive Kind where
  | regular (content : CString)
  | characterSpecial
  | blockSpecial
  | directory
  | symlink (target : CString)
  | socket
  | fifo
deriving DecidableEq

/-- A file with its permission bits and its owners. -/
structure Node where
  kind : Kind
  mode : ℕ
  uid : ℕ
  gid : ℕ
deriving DecidableEq

/-- The errors that the operations tell apart. -/
inductive Errno where
  | exists
  | isDirectory
  | notDirectory
  | noEntry
  | notEmpty
  | invalid
  | nameTooLong
  | range
  | other (code : ℕ)
deriving DecidableEq

/-- What stands at a place. -/
def nodeAt : List (Place × Node) → Place → Option Node
  | [], _ => none
  | (q, x) :: es, p => if q = p then some x else nodeAt es p

/-- A directory stands there. -/
def IsDir (o : Option Node) : Prop := o.map Node.kind = some .directory

instance (o : Option Node) : Decidable (IsDir o) := by unfold IsDir; infer_instance

/-- A file system. -/
structure FileSys where
  entries : List (Place × Node)
  root_isDir : IsDir (nodeAt entries [])
  parent_isDir : ∀ n p, nodeAt entries (n :: p) ≠ none → IsDir (nodeAt entries p)

/-- What stands at a place of the file system. -/
def FileSys.node (fs : FileSys) (p : Place) : Option Node := nodeAt fs.entries p

theorem isDir_iff {o : Option Node} : IsDir o ↔ ∃ x, o = some x ∧ x.kind = .directory := by
  simp [IsDir]

theorem IsDir.ne_none {o : Option Node} (h : IsDir o) : o ≠ none := by
  rintro rfl
  simp [IsDir] at h

/-- The file system with nothing but its root. -/
def FileSys.bare : FileSys where
  entries := [([], ⟨.directory, 493, 0, 0⟩)]
  root_isDir := rfl
  parent_isDir := fun _ _ h => absurd rfl h

/-! ### Changing one place -/

/-- The entries without those of a place. -/
def without (es : List (Place × Node)) (q : Place) : List (Place × Node) :=
  es.filter fun e => e.1 ≠ q

/-- The entries with the file at a place changed. -/
def changed (es : List (Place × Node)) (q : Place) (f : Node → Node) : List (Place × Node) :=
  es.map fun e => if e.1 = q then (e.1, f e.2) else e

theorem nodeAt_without (es : List (Place × Node)) (p q : Place) :
    nodeAt (without es q) p = if p = q then none else nodeAt es p := by
  induction es with
  | nil => simp [without, nodeAt]
  | cons e es ih =>
    obtain ⟨r, x⟩ := e
    by_cases hr : r = q
    · rw [without, List.filter_cons_of_neg (by simpa using hr)]
      refine ih.trans ?_
      by_cases hp : p = q
      · simp [hp]
      · have hrp : r ≠ p := fun h => hp (h ▸ hr)
        simp [hp, nodeAt, hrp]
    · rw [without, List.filter_cons_of_pos (by simpa using hr)]
      by_cases hrp : r = p
      · have hp : p ≠ q := hrp ▸ hr
        simp [nodeAt, hrp, hp]
      · rw [nodeAt, if_neg hrp, nodeAt, if_neg hrp]
        exact ih

theorem nodeAt_changed (es : List (Place × Node)) (f : Node → Node) (p q : Place) :
    nodeAt (changed es q f) p = if p = q then (nodeAt es p).map f else nodeAt es p := by
  induction es with
  | nil => simp [changed, nodeAt]
  | cons e es ih =>
    obtain ⟨r, x⟩ := e
    have hcons : changed ((r, x) :: es) q f = (r, if r = q then f x else x) :: changed es q f := by
      simp only [changed, List.map_cons]
      split_ifs <;> rfl
    rw [hcons, nodeAt, nodeAt]
    by_cases hrp : r = p
    · subst hrp
      simp only [if_true, Option.map_some]
      split_ifs <;> rfl
    · rw [if_neg hrp, if_neg hrp]
      exact ih

theorem nodeAt_eq_none {es : List (Place × Node)} {p : Place} (h : nodeAt es p = none) :
    ∀ e ∈ es, e.1 ≠ p := by
  induction es with
  | nil => simp
  | cons e es ih =>
    obtain ⟨r, x⟩ := e
    rw [nodeAt] at h
    split_ifs at h with hr
    intro e he
    rcases List.mem_cons.mp he with rfl | he
    · exact hr
    · exact ih h e he

theorem exists_entry {es : List (Place × Node)} {p : Place} (h : nodeAt es p ≠ none) :
    ∃ e ∈ es, e.1 = p := by
  induction es with
  | nil => exact absurd rfl h
  | cons e es ih =>
    obtain ⟨r, x⟩ := e
    rw [nodeAt] at h
    split_ifs at h with hr
    · exact ⟨(r, x), List.mem_cons_self, hr⟩
    · obtain ⟨e, he, hp⟩ := ih h
      exact ⟨e, List.mem_cons_of_mem _ he, hp⟩

/-- What holds wherever something stands holds of the entries. -/
theorem forall_node_iff {fs : FileSys} {P : Place → Prop} :
    (∀ p, fs.node p ≠ none → P p) ↔ ∀ e ∈ fs.entries, P e.1 := by
  constructor
  · exact fun h e he => h e.1 fun hno => nodeAt_eq_none hno e he rfl
  · rintro h p hp
    obtain ⟨e, he, rfl⟩ := exists_entry hp
    exact h e he

instance (fs : FileSys) (P : Place → Prop) [DecidablePred P] :
    Decidable (∀ p, fs.node p ≠ none → P p) := decidable_of_iff _ forall_node_iff.symm

/-- Put a file at a place in a directory; a directory is only replaced by a directory. -/
def FileSys.put (fs : FileSys) (n : Name) (dir : Place) (x : Node) (hdir : IsDir (fs.node dir))
    (hx : IsDir (fs.node (n :: dir)) → x.kind = .directory) : FileSys where
  entries := (n :: dir, x) :: without fs.entries (n :: dir)
  root_isDir := by simpa [nodeAt, nodeAt_without] using fs.root_isDir
  parent_isDir := by
    intro m p h
    have hself : dir ≠ n :: dir := fun h => by simpa using congrArg List.length h
    by_cases hp : p = n :: dir
    · subst hp
      have hm : ¬ n :: dir = m :: n :: dir := fun h => by simpa using congrArg List.length h
      simp only [nodeAt, if_neg hm, nodeAt_without, if_neg (Ne.symm hm)] at h
      simpa [nodeAt, IsDir] using hx (fs.parent_isDir m _ h)
    · simp only [nodeAt, if_neg (Ne.symm hp), nodeAt_without, if_neg hp]
      by_cases hmp : n :: dir = m :: p
      · obtain ⟨-, rfl⟩ := List.cons.inj hmp
        exact hdir
      · simp only [nodeAt, if_neg hmp, nodeAt_without, if_neg (Ne.symm hmp)] at h
        exact fs.parent_isDir m p h

/-- Take away what stands at a place with nothing below it. -/
def FileSys.remove (fs : FileSys) (n : Name) (dir : Place)
    (hempty : ∀ m, fs.node (m :: n :: dir) = none) : FileSys where
  entries := without fs.entries (n :: dir)
  root_isDir := by simpa [nodeAt_without] using fs.root_isDir
  parent_isDir := by
    intro m p h
    by_cases hmp : m :: p = n :: dir
    · simp [nodeAt_without, hmp] at h
    · rw [nodeAt_without, if_neg hmp] at h
      by_cases hp : p = n :: dir
      · exact absurd (hp ▸ hempty m) h
      · rw [nodeAt_without, if_neg hp]
        exact fs.parent_isDir m p h

/-- Change the file at a place; a directory stays one, and nothing else becomes one. -/
def FileSys.adjust (fs : FileSys) (p : Place) (f : Node → Node)
    (hf : ∀ x, (f x).kind = .directory ↔ x.kind = .directory) : FileSys where
  entries := changed fs.entries p f
  root_isDir := by
    rw [nodeAt_changed]
    split_ifs
    · obtain ⟨x, hx, hk⟩ := isDir_iff.mp fs.root_isDir
      exact isDir_iff.mpr ⟨f x, by simp [hx], (hf x).mpr hk⟩
    · exact fs.root_isDir
  parent_isDir := by
    intro n q h
    rw [nodeAt_changed] at h
    have hq : nodeAt fs.entries (n :: q) ≠ none := by
      split_ifs at h
      · simpa using h
      · exact h
    obtain ⟨x, hx, hk⟩ := isDir_iff.mp (fs.parent_isDir n q hq)
    rw [nodeAt_changed]
    split_ifs
    · exact isDir_iff.mpr ⟨f x, by simp [hx], (hf x).mpr hk⟩
    · exact isDir_iff.mpr ⟨x, hx, hk⟩

section Node

variable {fs : FileSys} {n : Name} {dir : Place}

@[simp] theorem node_put {x : Node} (hdir : IsDir (fs.node dir))
    (hx : IsDir (fs.node (n :: dir)) → x.kind = .directory) (p : Place) :
    (fs.put n dir x hdir hx).node p = if p = n :: dir then some x else fs.node p := by
  rw [FileSys.node, FileSys.put, nodeAt, nodeAt_without]
  by_cases hp : p = n :: dir
  · rw [if_pos hp.symm, if_pos hp]
  · rw [if_neg (Ne.symm hp), if_neg hp, if_neg hp]
    rfl

@[simp] theorem node_remove (hempty : ∀ m, fs.node (m :: n :: dir) = none) (p : Place) :
    (fs.remove n dir hempty).node p = if p = n :: dir then none else fs.node p :=
  nodeAt_without _ _ _

@[simp] theorem node_adjust {q : Place} {f : Node → Node}
    (hf : ∀ x, (f x).kind = .directory ↔ x.kind = .directory) (p : Place) :
    (fs.adjust q f hf).node p = if p = q then (fs.node p).map f else fs.node p :=
  nodeAt_changed _ _ _ _

theorem isDir_remove {hempty : ∀ m, fs.node (m :: n :: dir) = none} {p : Place}
    (hp : p ≠ n :: dir) : IsDir ((fs.remove n dir hempty).node p) ↔ IsDir (fs.node p) := by
  rw [node_remove, if_neg hp]

/-- What exists stands in a directory. -/
theorem isDir_of_node {p : Place} (h : fs.node (n :: p) ≠ none) : IsDir (fs.node p) :=
  fs.parent_isDir n p h

/-- Only a directory holds anything. -/
theorem node_below_of_not_isDir {p : Place} (h : ¬ IsDir (fs.node p)) (m : Name) :
    fs.node (m :: p) = none := by
  by_contra hm
  exact h (isDir_of_node hm)

end Node

/-! ### Empty directories -/

/-- Nothing stands in the directory. -/
def FileSys.Vacant (fs : FileSys) (p : Place) : Prop := ∀ e ∈ fs.entries, e.1 = [] ∨ e.1.tail ≠ p

instance (fs : FileSys) (p : Place) : Decidable (fs.Vacant p) := by
  unfold FileSys.Vacant; infer_instance

theorem vacant_iff {fs : FileSys} {p : Place} : fs.Vacant p ↔ ∀ n, fs.node (n :: p) = none := by
  constructor
  · intro h n
    have hes : ∀ es : List (Place × Node), (∀ e ∈ es, e.1 = [] ∨ e.1.tail ≠ p) →
        nodeAt es (n :: p) = none := by
      intro es
      induction es with
      | nil => intro _; rfl
      | cons e es ih =>
        intro hes
        obtain ⟨q, x⟩ := e
        have hq : q ≠ n :: p := by
          rintro rfl
          simpa using hes _ List.mem_cons_self
        rw [nodeAt, if_neg hq]
        exact ih fun e he => hes e (List.mem_cons_of_mem _ he)
    exact hes _ h
  · intro h e he
    rcases hq : e.1 with _ | ⟨n, q⟩
    · exact .inl rfl
    · refine .inr ?_
      rintro rfl
      exact nodeAt_eq_none (h n) e he hq

/-! ### Resolving path names -/

/-- Walk along components. `follow` goes on behind a symbolic link; with `create` the last component
may be missing. -/
def walkWith (node : Place → Option Node) (create : Bool)
    (follow : Place → List Component → Option Place) : Place → List Component → Option Place
  | p, [] => some p
  | p, .here :: cs => if IsDir (node p) then walkWith node create follow p cs else none
  | p, .up :: cs => if IsDir (node p) then walkWith node create follow p.tail cs else none
  | p, .name n :: cs =>
    if IsDir (node p) then
      match (node (n :: p)).map Node.kind with
      | none => if create ∧ cs = [] then some (n :: p) else none
      | some (.symlink target) =>
        follow (if Absolute target then [] else p) (components target ++ cs)
      | some _ => walkWith node create follow (n :: p) cs
    else none

/-- Walk along components, through at most `limit` symbolic links. -/
def FileSys.walk (fs : FileSys) (create : Bool) : ℕ → Place → List Component → Option Place
  | 0 => walkWith fs.node create fun _ _ => none
  | limit + 1 => walkWith fs.node create (fs.walk create limit)

/-- The symbolic links that are followed in one path name. -/
def maxSymlinks : ℕ := 40

/-- Where the walk along a path name starts. -/
def start (cwd : Place) (path : CString) : Place := if Absolute path then [] else cwd

/-- The path name ends in a slash. -/
def Slashed (path : CString) : Prop := path.getLast? = some '/'

instance (path : CString) : Decidable (Slashed path) := by unfold Slashed; infer_instance

/-- The file that a path name leads to, links followed. -/
def FileSys.follow (fs : FileSys) (cwd : Place) (path : CString) : Option Place :=
  if path = [] then none
  else (fs.walk false maxSymlinks (start cwd path) (components path)).filter fun p =>
    ¬ Slashed path ∨ IsDir (fs.node p)

/-- A name in a directory. -/
structure Spot (fs : FileSys) where
  name : Name
  dir : Place
  isDir : IsDir (fs.node dir)

/-- The place of a name in a directory. -/
def Spot.place {fs : FileSys} (s : Spot fs) : Place := s.name :: s.dir

/-- The name in a directory that the components lead to, not followed if it is a link. -/
def FileSys.spot (fs : FileSys) (limit : ℕ) (p : Place) (cs : List Component) :
    Option (Spot fs) :=
  match cs.getLast? with
  | some (.name n) => do
    let dir ← fs.walk false limit p cs.dropLast
    if h : IsDir (fs.node dir) then some ⟨n, dir, h⟩ else none
  | _ => none

/-- The name in a directory that a path name leads to. -/
def FileSys.locate (fs : FileSys) (cwd : Place) (path : CString) : Option (Spot fs) :=
  fs.spot maxSymlinks (start cwd path) (components path)

/-! ### Operations -/

/-- `mkdir`. -/
def FileSys.mkdir (fs : FileSys) (cwd : Place) (path : CString) (mode uid gid : ℕ) :
    Except Errno FileSys :=
  match fs.locate cwd path with
  | none => .error (if fs.follow cwd path = none then .noEntry else .exists)
  | some s =>
    if fs.node s.place = none then
      .ok (fs.put s.name s.dir ⟨.directory, mode, uid, gid⟩ s.isDir fun _ => rfl)
    else .error .exists

/-- `rmdir`. -/
def FileSys.rmdir (fs : FileSys) (cwd : Place) (path : CString) : Except Errno FileSys :=
  match fs.locate cwd path with
  | none => .error (if fs.follow cwd path = none then .noEntry else .invalid)
  | some s =>
    if fs.node s.place = none then .error .noEntry
    else if IsDir (fs.node s.place) then
      if h : fs.Vacant s.place then .ok (fs.remove s.name s.dir (vacant_iff.mp h))
      else .error .notEmpty
    else .error .notDirectory

/-- `unlink`. -/
def FileSys.unlink (fs : FileSys) (cwd : Place) (path : CString) : Except Errno FileSys :=
  if Slashed path then .error .notDirectory
  else match fs.locate cwd path with
  | none => .error .noEntry
  | some s =>
    if fs.node s.place = none then .error .noEntry
    else if h : IsDir (fs.node s.place) then .error .isDirectory
    else .ok (fs.remove s.name s.dir (node_below_of_not_isDir h))

/-- `symlink`. -/
def FileSys.symlink (fs : FileSys) (cwd : Place) (target path : CString) (uid gid : ℕ) :
    Except Errno FileSys :=
  if target = [] ∨ Slashed path then .error .noEntry
  else match fs.locate cwd path with
  | none => .error .noEntry
  | some s =>
    if h : fs.node s.place = none then
      .ok (fs.put s.name s.dir ⟨.symlink target, 511, uid, gid⟩ s.isDir fun hd =>
        absurd h hd.ne_none)
    else .error .exists

/-- `rename` of a file that is no directory. -/
def FileSys.rename (fs : FileSys) (cwd : Place) (old new : CString) : Except Errno FileSys :=
  if Slashed old ∨ Slashed new then .error .notDirectory
  else match fs.locate cwd old, fs.locate cwd new with
  | some s, some t =>
    match fs.node s.place with
    | none => .error .noEntry
    | some x =>
      if hs : IsDir (fs.node s.place) then .error .isDirectory
      else if ht : IsDir (fs.node t.place) then .error .isDirectory
      else if hst : t.place = s.place then .ok fs
      else .ok ((fs.remove s.name s.dir (node_below_of_not_isDir hs)).put t.name t.dir x
        ((isDir_remove fun h : t.dir = s.place => hs (h ▸ t.isDir)).mpr t.isDir)
        fun h => absurd ((isDir_remove hst).mp h) ht)
  | _, _ => .error .noEntry

/-- Give a file new contents. -/
def withContent (content : CString) (x : Node) : Node :=
  match x.kind with
  | .regular _ => { x with kind := .regular content }
  | _ => x

theorem withContent_directory (content : CString) (x : Node) :
    (withContent content x).kind = .directory ↔ x.kind = .directory := by
  unfold withContent
  split <;> simp_all

/-- Open a file for writing: the file is created, or cut to nothing. -/
def FileSys.openWrite (fs : FileSys) (cwd : Place) (path : CString) (mode uid gid : ℕ) :
    Except Errno (Place × FileSys) :=
  if path = [] then .error .noEntry
  else if Slashed path then .error .isDirectory
  else match fs.walk true maxSymlinks (start cwd path) (components path) with
  | none => .error .noEntry
  | some [] => .error .isDirectory
  | some (n :: dir) =>
    if IsDir (fs.node (n :: dir)) then .error .isDirectory
    else if h : fs.node (n :: dir) = none then
      if hd : IsDir (fs.node dir) then
        .ok (n :: dir, fs.put n dir ⟨.regular [], mode, uid, gid⟩ hd fun hn => absurd h hn.ne_none)
      else .error .noEntry
    else .ok (n :: dir, fs.adjust (n :: dir) (withContent []) (withContent_directory []))

/-- The set-user-ID and the set-group-ID bit. -/
def setIdBits : ℕ := 3072

/-- The set-ID bits that `chown` takes from a file. POSIX leaves them to the system; this is Linux: a
directory keeps both, and another file that its group may not execute keeps its set-group-ID bit. -/
def droppedBits : Node → ℕ
  | ⟨.directory, _, _, _⟩ => 0
  | ⟨_, mode, _, _⟩ => if mode &&& 8 = 0 then 2048 else setIdBits

/-- The mode that `chown` leaves to a file. -/
def ownedMode (x : Node) : ℕ := (x.mode ||| droppedBits x) ^^^ droppedBits x

/-- Change the owners of a file. -/
def withOwners (uid gid : ℕ) (x : Node) : Node :=
  { x with mode := ownedMode x, uid := uid, gid := gid }

/-- Change the permission bits of a file. -/
def withMode (mode : ℕ) (x : Node) : Node := { x with mode := mode }

/-- `chown`. -/
def FileSys.chown (fs : FileSys) (cwd : Place) (path : CString) (uid gid : ℕ) :
    Except Errno FileSys :=
  match fs.follow cwd path with
  | none => .error .noEntry
  | some p => .ok (fs.adjust p (withOwners uid gid) fun _ => Iff.rfl)

/-- `chmod`. -/
def FileSys.chmod (fs : FileSys) (cwd : Place) (path : CString) (mode : ℕ) :
    Except Errno FileSys :=
  match fs.follow cwd path with
  | none => .error .noEntry
  | some p => .ok (fs.adjust p (withMode mode) fun _ => Iff.rfl)

/-- `stat`. -/
def FileSys.stat (fs : FileSys) (cwd : Place) (path : CString) : Except Errno Node :=
  match (fs.follow cwd path).bind fs.node with
  | none => .error .noEntry
  | some x => .ok x

/-- `lstat`. -/
def FileSys.lstat (fs : FileSys) (cwd : Place) (path : CString) : Except Errno Node :=
  if Slashed path then fs.stat cwd path
  else match (fs.locate cwd path).bind fun s => fs.node s.place with
  | none => if (components path).getLast? = some .here ∨ (components path).getLast? = some .up then
      fs.stat cwd path else .error .noEntry
  | some x => .ok x

/-! ### The mode after `chown` -/

theorem testBit_ownedMode (x : Node) (i : ℕ) :
    (ownedMode x).testBit i = (x.mode.testBit i && !(droppedBits x).testBit i) := by
  rw [ownedMode, Nat.testBit_xor, Nat.testBit_or]
  cases x.mode.testBit i <;> cases (droppedBits x).testBit i <;> rfl

/-- What is dropped are set-ID bits. -/
theorem setIdBits_of_dropped {x : Node} {i : ℕ} (h : (droppedBits x).testBit i = true) :
    setIdBits.testBit i = true := by
  have hsub : droppedBits x &&& setIdBits = droppedBits x := by
    unfold droppedBits
    split
    · exact Nat.zero_and _
    · split <;> rfl
  rw [← hsub, Nat.testBit_and, Bool.and_eq_true] at h
  exact h.2

/-- The other bits stay. -/
theorem ownedMode_and (x : Node) {bits : ℕ} (h : bits &&& setIdBits = 0) :
    ownedMode x &&& bits = x.mode &&& bits := by
  refine Nat.eq_of_testBit_eq fun i => ?_
  have hbits : (bits.testBit i && setIdBits.testBit i) = false := by
    rw [← Nat.testBit_and, h, Nat.zero_testBit]
  rw [Nat.testBit_and, Nat.testBit_and, testBit_ownedMode]
  cases hi : (droppedBits x).testBit i with
  | false => simp
  | true =>
    rw [setIdBits_of_dropped hi, Bool.and_true] at hbits
    rw [hbits, Bool.and_false, Bool.and_false]

theorem withOwners_directory (uid gid mode uid' gid' : ℕ) :
    withOwners uid gid ⟨.directory, mode, uid', gid'⟩ = ⟨.directory, mode, uid, gid⟩ := by
  simp [withOwners, ownedMode, droppedBits]

/-- To change the owners once more changes nothing. -/
theorem withOwners_again (uid gid : ℕ) (x : Node) :
    withOwners uid gid (withOwners uid gid x) = withOwners uid gid x := by
  have hexec : (withOwners uid gid x).mode &&& 8 = x.mode &&& 8 := ownedMode_and x (by decide)
  have hdropped : droppedBits (withOwners uid gid x) = droppedBits x := by
    obtain ⟨kind, mode, uid', gid'⟩ := x
    cases kind with
    | directory => rfl
    | _ => exact congrArg (fun m => if m = 0 then 2048 else setIdBits) hexec
  have hmode : ownedMode (withOwners uid gid x) = ownedMode x := by
    refine Nat.eq_of_testBit_eq fun i => ?_
    rw [testBit_ownedMode, hdropped, withOwners, testBit_ownedMode, Bool.and_assoc, Bool.and_self]
  unfold withOwners at hmode ⊢
  rw [hmode]

/-! ### Small file systems -/

/-- A file system with the root only holds no entry. -/
theorem bare_node (n : Name) : ¬ IsDir (FileSys.bare.node [n]) := by
  simp [FileSys.bare, FileSys.node, nodeAt, IsDir]

/-- A file of the first user in the root, in the place of no directory. -/
def FileSys.withFile (fs : FileSys) (n : Name) (content : CString) (mode : ℕ)
    (h : ¬ IsDir (fs.node [n])) : FileSys :=
  fs.put n [] ⟨.regular content, mode, 0, 0⟩ fs.root_isDir fun hdir => absurd hdir h

/-- The name `a`. -/
def nameA : Name := ⟨['a'], by decide, by decide, by decide, by decide⟩

/-- The name `b`. -/
def nameB : Name := ⟨['b'], by decide, by decide, by decide, by decide⟩

/-- The name `lib`. -/
def nameLib : Name := ⟨"lib".toList, by decide, by decide, by decide, by decide⟩

/-- The name `m.vlb`. -/
def nameVlb : Name := ⟨"m.vlb".toList, by decide, by decide, by decide, by decide⟩

/-- The name `conf-sosuffix`. -/
def nameSosuffix : Name := ⟨"conf-sosuffix".toList, by decide, by decide, by decide, by decide⟩

end LuaAdaLoad.System.FileSystem
