import LuaAdaLoad.Text.Buffers
import LuaAdaLoad.Install.BaseNames

/-!
# The buffer of base_name

`base_name` with its pointers: `s`, `t` and `u` are offsets into the path, and a read outside of the
path is no result at all. On every path that fits into the buffer the function returns 1, reads and
writes only where it may, and leaves the base name in the buffer. The buffer is static: it holds what
an earlier call has left in it.
-/

namespace LuaAdaLoad.Install.BaseNameBuffer

open LuaAdaLoad.System.Paths LuaAdaLoad.Text.Buffers LuaAdaLoad.Install.BaseNames
open LuaAdaLoad.Install.Translation (maxPathLen skipSlashes blockStart baseNameOf)

/-- `while ((t > s) && (t [0] == '/')) --t`, in at most `k` rounds. -/
def scanSlashes (dir : CString) : ℕ → ℤ → Option ℤ
  | 0, _ => none
  | k + 1, t =>
    if t > 0 then do
      if (← peek dir t) = '/' then scanSlashes dir k (t - 1) else return t
    else some t

/-- `while ((u > s) && (*(u - 1) != '/')) --u`, in at most `k` rounds. -/
def scanBlock (dir : CString) : ℕ → ℤ → Option ℤ
  | 0, _ => none
  | k + 1, u =>
    if u > 0 then do
      if (← peek dir (u - 1)) ≠ '/' then scanBlock dir k (u - 1) else return u
    else some u

/-- `(t == s) && (t [0] == '/')`. -/
def atRoot (dir : CString) (t : ℤ) : Option Bool :=
  if t = 0 then do return (← peek dir t) = '/' else some false

/-- `base_name`, with the buffer as it was: what it returns, and the buffer; `none` is a read outside
of the path, or a loop that takes more than `k` rounds. -/
def baseName (pathBuf : Buffer) (dir : CString) (k : ℕ) : Option (ℕ × Buffer) :=
  let len := wrap dir.length
  if len = 0 then some (1, (pathBuf.store 0 '.').store 1 nul)
  else if maxPathLen ≤ len then some (0, pathBuf)
  else do
    let t ← scanSlashes dir k (len - 1)
    if ← atRoot dir t then
      return (1, (pathBuf.store 0 '/').store 1 nul)
    let u ← scanBlock dir k t
    let nlen := wrapInt (t - u + 1)
    let buf := pathBuf.copy 0 (← peekRange dir u nlen)
    return (1, buf.store nlen nul)

/-! ### The two scans -/

theorem scanSlashes_eq (dir : CString) (t : ℕ) : ∀ {k : ℕ}, t < dir.length → t + 1 ≤ k →
    scanSlashes dir k t = some (skipSlashes dir t : ℤ) := by
  induction t with
  | zero =>
    intro k _ hk
    obtain ⟨k, rfl⟩ : ∃ k', k = k' + 1 := ⟨k - 1, by omega⟩
    simp [scanSlashes, skipSlashes]
  | succ t ih =>
    intro k ht hk
    obtain ⟨k, rfl⟩ : ∃ k', k = k' + 1 := ⟨k - 1, by omega⟩
    have hpos : ((t + 1 : ℕ) : ℤ) > 0 := by omega
    have hback : ((t + 1 : ℕ) : ℤ) - 1 = t := by omega
    rw [scanSlashes, if_pos hpos, peek_of_lt ht, skipSlashes, List.getElem?_eq_getElem ht]
    simp only [Option.bind_eq_bind, Option.bind_some, Option.some.injEq, hback]
    split_ifs
    · exact ih (by omega) (by omega)
    · rfl

theorem scanBlock_eq (dir : CString) (u : ℕ) : ∀ {k : ℕ}, u ≤ dir.length → u + 1 ≤ k →
    scanBlock dir k u = some (blockStart dir u : ℤ) := by
  induction u with
  | zero =>
    intro k _ hk
    obtain ⟨k, rfl⟩ : ∃ k', k = k' + 1 := ⟨k - 1, by omega⟩
    simp [scanBlock, blockStart]
  | succ u ih =>
    intro k hu hk
    obtain ⟨k, rfl⟩ : ∃ k', k = k' + 1 := ⟨k - 1, by omega⟩
    have hpos : ((u + 1 : ℕ) : ℤ) > 0 := by omega
    have hback : ((u + 1 : ℕ) : ℤ) - 1 = u := by omega
    rw [scanBlock, if_pos hpos, hback, peek_of_lt hu, blockStart, List.getElem?_eq_getElem hu]
    simp only [Option.bind_eq_bind, Option.bind_some, Option.some.injEq, ne_eq, ite_not]
    split_ifs
    · rfl
    · exact ih (by omega) (by omega)

theorem atRoot_eq {dir : CString} {t : ℕ} (ht : t < dir.length) :
    atRoot dir t = some (decide (t = 0 ∧ dir[t]? = some '/')) := by
  unfold atRoot
  by_cases hzero : t = 0
  · subst hzero
    have hread : peek dir ((0 : ℕ) : ℤ) = some dir[0] := by
      rw [peek_of_lt ht, List.getElem?_eq_getElem ht]
    simp only [Nat.cast_zero] at hread ⊢
    simp [hread, List.getElem?_eq_getElem ht]
  · have hne : (t : ℤ) ≠ 0 := by omega
    rw [if_neg hne]
    simp [hzero]

/-! ### The whole function -/

/-- A string of one character. -/
theorem store_one {pathBuf : Buffer} (h : pathBuf.Within maxPathLen) (c : Char) :
    ((pathBuf.store 0 c).store 1 nul).Holds ([c] ++ [nul]) ∧
      ((pathBuf.store 0 c).store 1 nul).Within maxPathLen :=
  ⟨((holds_nil pathBuf).store c).store nul,
    (h.store (by decide) c).store (by decide) nul⟩

/-- The block from `u` to `t`. -/
theorem copy_block {pathBuf : Buffer} (h : pathBuf.Within maxPathLen) {dir : CString} {u t : ℕ}
    (hut : u ≤ t) (ht : t < dir.length) (hlen : dir.length < maxPathLen) :
    peekRange dir u (t - u + 1) = some ((dir.drop u).take (t - u + 1)) ∧
      ((pathBuf.copy 0 ((dir.drop u).take (t - u + 1))).store (t - u + 1) nul).Holds
        ((dir.drop u).take (t - u + 1) ++ [nul]) ∧
      ((pathBuf.copy 0 ((dir.drop u).take (t - u + 1))).store (t - u + 1) nul).Within
        maxPathLen := by
  have hblock : ((dir.drop u).take (t - u + 1)).length = t - u + 1 := by
    rw [List.length_take, List.length_drop]
    omega
  have hbefore : (dir.take u).length = u := by
    rw [List.length_take]
    omega
  have hread := peekRange_append (dir.take u) ((dir.drop u).take (t - u + 1)) (dir.drop (t + 1))
  have hholds := ((holds_nil pathBuf).copy ((dir.drop u).take (t - u + 1))).store nul
  rw [← split_block dir hut, hblock, hbefore] at hread
  rw [List.nil_append, hblock] at hholds
  refine ⟨hread, hholds, (h.copy ?_).store ?_ nul⟩
  · rw [hblock]
    omega
  · omega

/-- `base_name` leaves in its buffer what `baseNameOf` says. -/
theorem baseName_run {pathBuf : Buffer} (h : pathBuf.Within maxPathLen) {dir : CString}
    (hlen : dir.length < maxPathLen) : ∃ base buf, baseNameOf dir = some base ∧
      (∀ k, dir.length + 1 ≤ k → baseName pathBuf dir k = some (1, buf)) ∧
      buf.Holds (base ++ [nul]) ∧ buf.Within maxPathLen := by
  have hmax : maxPathLen < 2 ^ 32 := by decide
  have hwrap : wrap dir.length = dir.length := wrap_of_lt (by omega)
  have hmod : dir.length % 2 ^ 32 = dir.length := hwrap
  by_cases hzero : dir.length = 0
  · refine ⟨['.'], _, ?_, fun k _ => ?_, store_one h '.'⟩
    · rw [baseNameOf, hmod, if_pos hzero]
    · rw [baseName, hwrap, if_pos hzero]
  have ht : skipSlashes dir (dir.length - 1) < dir.length := by
    have := (skipSlashes_spec dir (dir.length - 1)).1
    omega
  have hscan : ∀ k, dir.length + 1 ≤ k → scanSlashes dir k (dir.length - 1) =
      some (skipSlashes dir (dir.length - 1) : ℤ) := fun k hk => by
    have hcast : (dir.length : ℤ) - 1 = (dir.length - 1 : ℕ) := by omega
    rw [hcast]
    exact scanSlashes_eq dir _ (by omega) (by omega)
  have hlong : ¬ maxPathLen ≤ dir.length := by omega
  have hof : baseNameOf dir = if skipSlashes dir (dir.length - 1) = 0 ∧
        dir[skipSlashes dir (dir.length - 1)]? = some '/' then some ['/']
      else some ((dir.drop (blockStart dir (skipSlashes dir (dir.length - 1)))).take
        (skipSlashes dir (dir.length - 1) -
          blockStart dir (skipSlashes dir (dir.length - 1)) + 1)) := by
    simp only [baseNameOf, hmod, if_neg hzero, if_neg hlong]
  generalize skipSlashes dir (dir.length - 1) = t at ht hscan hof
  by_cases hroot : t = 0 ∧ dir[t]? = some '/'
  · refine ⟨['/'], _, by rw [hof, if_pos hroot], fun k hk => ?_, store_one h '/'⟩
    simp only [baseName, hwrap, if_neg hzero, if_neg hlong, hscan k hk, Option.bind_eq_bind,
      Option.bind_some, atRoot_eq ht, decide_eq_true hroot, if_true]
    rfl
  · have hut := (blockStart_spec dir t).1
    obtain ⟨hread, hholds, hwithin⟩ := copy_block h hut ht hlen
    refine ⟨_, _, by rw [hof, if_neg hroot], fun k hk => ?_, hholds, hwithin⟩
    have hblock : scanBlock dir k t = some (blockStart dir t : ℤ) :=
      scanBlock_eq dir t (by omega) (by omega)
    have hnlen : wrapInt ((t : ℤ) - blockStart dir t + 1) = t - blockStart dir t + 1 := by
      have hcast : (t : ℤ) - blockStart dir t + 1 = (t - blockStart dir t + 1 : ℕ) := by omega
      rw [hcast, wrapInt_natCast (by omega)]
    simp only [baseName, hwrap, if_neg hzero, if_neg hlong, hscan k hk, Option.bind_eq_bind,
      Option.bind_some, atRoot_eq ht, decide_eq_false hroot, Bool.false_eq_true, if_false, hblock,
      hnlen, hread]
    rfl

/-- The base name of a path that fits is a string that fits. -/
theorem posixBase_fits {dir : CString} (hnul : nul ∉ dir) (hlen : dir.length < maxPathLen) :
    nul ∉ posixBase dir ∧ (posixBase dir).length < maxPathLen := by
  refine ⟨fun hmem => ?_, ?_⟩
  · rcases mem_posixBase hmem with hmem | heq | heq
    · exact hnul hmem
    · exact absurd heq (by decide)
    · exact absurd heq (by decide)
  · rcases posixBase_cases dir with ⟨-, hbase⟩ | ⟨-, -, hbase⟩ | ⟨pre, post, hpath, -⟩
    · rw [hbase]
      decide
    · rw [hbase]
      decide
    · have hlength := congrArg List.length hpath
      simp only [List.length_append] at hlength
      omega

/-- What `base_name` does on a path that fits. -/
theorem baseName_fits {pathBuf : Buffer} (h : pathBuf.Within maxPathLen) {dir : CString}
    (hnul : nul ∉ dir) (hlen : dir.length < maxPathLen) : ∃ buf : Buffer,
      (∀ k, dir.length + 1 ≤ k → baseName pathBuf dir k = some (1, buf)) ∧
      buf.string maxPathLen = some (posixBase dir) ∧ buf.Within maxPathLen := by
  obtain ⟨base, buf, hof, hrun, hholds, hwithin⟩ := baseName_run h hlen
  have hmax : maxPathLen < 2 ^ 32 := by decide
  obtain rfl := baseNameOf_eq (by omega) hof
  obtain ⟨hnul, hlen⟩ := posixBase_fits hnul hlen
  exact ⟨buf, hrun, hholds.string hnul hlen, hwithin⟩

/-- **`base_name` computes the base name of POSIX**, on every path that fits into its buffer: it
returns 1, no read is outside of the path and no write outside of the buffer; and its result, passed
to it again, is given again. -/
theorem baseName_posix (garbage : ℕ → Char) {dir : CString} (hnul : nul ∉ dir)
    (hlen : dir.length < maxPathLen) : ∃ buf : Buffer,
      (∀ k, dir.length + 1 ≤ k → baseName (.fresh garbage) dir k = some (1, buf)) ∧
      buf.string maxPathLen = some (posixBase dir) ∧ IsBase dir (posixBase dir) ∧
      (∀ i ∈ buf.writes, i < maxPathLen) ∧
      ∃ buf' : Buffer,
        (∀ k, (posixBase dir).length + 1 ≤ k → baseName buf (posixBase dir) k = some (1, buf')) ∧
        buf'.string maxPathLen = some (posixBase dir) := by
  obtain ⟨buf, hrun, hstring, hwithin⟩ := baseName_fits (within_fresh garbage _) hnul hlen
  obtain ⟨hnul, hlen⟩ := posixBase_fits hnul hlen
  -- the second call finds the result of the first in the buffer
  obtain ⟨buf', hrun', hstring', -⟩ := baseName_fits hwithin hnul hlen
  rw [posixBase_idem] at hstring'
  exact ⟨buf, hrun, hstring, posixBase_isBase dir, hwithin, buf', hrun', hstring'⟩

theorem baseName_posix_lib : ∃ buf : Buffer,
    (∀ k, 11 ≤ k → baseName (.fresh fun _ => '?') "/usr/lib//".toList k = some (1, buf)) ∧
    buf.string maxPathLen = some "lib".toList ∧ IsBase "/usr/lib//".toList "lib".toList := by
  obtain ⟨buf, hrun, hstring, hbase, -⟩ :=
    baseName_posix (fun _ => '?') (by decide : nul ∉ "/usr/lib//".toList) (by decide)
  have hlib : posixBase "/usr/lib//".toList = "lib".toList := by decide
  rw [hlib] at hstring hbase
  exact ⟨buf, hrun, hstring, hbase⟩

end LuaAdaLoad.Install.BaseNameBuffer
