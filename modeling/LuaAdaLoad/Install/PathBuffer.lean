import LuaAdaLoad.Text.Buffers
import LuaAdaLoad.Install.Directories

/-!
# The buffer of install_rmkdir

The loop of `install_rmkdir` with all its variables: it copies the path into `path_buf`, component
by component, and calls `install_mkdir` on what the buffer holds. Whatever the calls return, the
loop ends and stays within the buffer; where no call makes it return, the calls are those on the
directories along the path (`wp_rmkdirLoop` is about the same loop, without its variables).
-/

namespace LuaAdaLoad.Install.PathBuffer

open LuaAdaLoad.System.Paths LuaAdaLoad.System.FileSystem LuaAdaLoad.Text.Buffers
open LuaAdaLoad.Install.Posix LuaAdaLoad.Install.Translation LuaAdaLoad.Install.Directories

/-- What a call of `install_mkdir` returns, and `errno` after it. -/
structure Answer where
  result : ℤ
  errno : Option Errno

/-- What `install_mkdir` answers may depend on all calls that were made, the last one included. -/
abbrev Mkdir := List CString → Answer

/-- The variables; `calls` are the paths that were passed to `install_mkdir`. -/
structure Vars where
  ptr : ℕ
  len : ℕ
  buflen : ℕ
  bufpos : ℕ
  atEnd : Bool
  buf : Buffer
  calls : List CString

/-- How `install_rmkdir` ends: the path is too long, a call of `install_mkdir` makes it return 0, or
it gets to its end and returns 1. -/
inductive Ending where
  | tooLong
  | failed
  | through
deriving DecidableEq

/-- A round goes on with the loop, or leaves it. -/
inductive Turn where
  | again (v : Vars)
  | leave (e : Ending) (v : Vars)

/-- `pos` and `end`, for what `strchr` finds. -/
def component (v : Vars) : Option ℕ → ℕ × Bool
  | none => (v.len, true)
  | some ptr2 => (wrap (ptr2 - v.ptr), v.atEnd)

/-- From `memcpy` to the call of `install_mkdir`. -/
def fill (dir : CString) (pos : ℕ) (v : Vars) : Option Vars := do
  let buf := v.buf.copy v.bufpos (← peekRange dir v.ptr pos)
  let bufpos := wrap (v.bufpos + pos)
  let buflen := wrapSub v.buflen pos
  let buf := buf.store bufpos '/'
  let bufpos := wrap (bufpos + 1)
  let buflen := wrapSub buflen 1
  let buf := buf.store bufpos nul
  let path ← buf.string maxPathLen
  return { v with buf := buf, bufpos := bufpos, buflen := buflen, calls := v.calls ++ [path] }

/-- The end of a round. -/
def advance (pos : ℕ) (v : Vars) : Turn :=
  let v := { v with ptr := v.ptr + pos, len := wrapSub v.len pos }
  if v.len ≠ 0 then
    let v := { v with ptr := v.ptr + 1, len := wrapSub v.len 1 }
    if v.len = 0 then .leave .through v else .again v
  else .again v

/-- The body of the loop; `none` is a read outside of a string. -/
def round (mkdir : Mkdir) (dir : CString) (v : Vars) : Option Turn :=
  if v.len = 0 then some (.leave .through v)
  else do
    let (pos, atEnd) := component v (← strchr dir v.ptr '/')
    let v := { v with atEnd := atEnd }
    if v.buflen ≤ wrap (pos + 1) then return .leave .through v
    let v ← fill dir pos v
    let answer := mkdir v.calls
    if answer.result = -1 then
      if !v.atEnd then
        if answer.errno ≠ some .exists ∧ answer.errno ≠ some .isDirectory then
          return .leave .failed v
        else return advance pos v
      else return .leave .failed v
    else return advance pos v

/-- At most `k` rounds of the loop; `none` is a read outside of a string, or a loop that goes on. -/
def rounds (mkdir : Mkdir) (dir : CString) : ℕ → Vars → Option (Ending × Vars)
  | 0, _ => none
  | k + 1, v => do
    match ← round mkdir dir v with
    | .leave e v => return (e, v)
    | .again v => rounds mkdir dir k v

/-- `install_rmkdir`, with a buffer that holds anything. -/
def installRmkdir (mkdir : Mkdir) (garbage : ℕ → Char) (dir : CString) (k : ℕ) :
    Option (Ending × Vars) :=
  let v : Vars := ⟨0, wrap dir.length, maxPathLen, 0, false, .fresh garbage, []⟩
  if maxPathLen ≤ v.len then some (.tooLong, v) else rounds mkdir dir k v

/-! ### One round -/

/-- The loop is about to go on with `rest`, behind the part `pre` of the path, which the buffer
holds. -/
structure At (pre rest : CString) (v : Vars) : Prop where
  ptr : v.ptr = pre.length
  len : v.len = rest.length
  bufpos : v.bufpos = pre.length
  buflen : v.buflen = maxPathLen - pre.length
  fits : pre.length + rest.length < maxPathLen
  holds : v.buf.Holds pre
  within : v.buf.Within maxPathLen

/-- What the loop ensures where it is left: the writes are in the buffer, and the calls are those on
the first of the directories along the path, on all of them but where a call fails. -/
structure Ran (mkdir : Mkdir) (pre rest : CString) (v : Vars) (e : Ending) (v' : Vars) : Prop where
  within : v'.buf.Within maxPathLen
  proper : e ≠ .tooLong
  refused : e = .failed → (mkdir v'.calls).result = -1
  calls : ∃ calls, v'.calls = v.calls ++ calls ∧ calls <+: loopDirs pre rest ∧
    (e = .through → calls = loopDirs pre rest)

section Ran

variable {mkdir : Mkdir} {pre rest : CString} {v v' : Vars}

/-- The loop is left at its end. -/
theorem ran_through (within : v'.buf.Within maxPathLen)
    (made : v'.calls = v.calls ++ loopDirs pre rest) : Ran mkdir pre rest v .through v' :=
  ⟨within, by decide, fun he => absurd he (by decide), _, made, List.prefix_rfl, fun _ => rfl⟩

/-- The loop is left because a call fails. -/
theorem ran_failed {dir : CString} (within : v'.buf.Within maxPathLen)
    (made : v'.calls = v.calls ++ [dir]) (first : [dir] <+: loopDirs pre rest)
    (refused : (mkdir v'.calls).result = -1) : Ran mkdir pre rest v .failed v' :=
  ⟨within, by decide, fun _ => refused, _, made, first, fun he => absurd he (by decide)⟩

end Ran

/-- What a round can do: leave the loop; go on behind the next slash; or go on behind the end of the
path. -/
inductive Turned (mkdir : Mkdir) (pre rest : CString) (v : Vars) : Turn → Prop
  | leaves {e : Ending} {v' : Vars} (ran : Ran mkdir pre rest v e v') :
      Turned mkdir pre rest v (.leave e v')
  | next {c rest' : CString} {v' : Vars} (split : rest = c ++ '/' :: rest') (noSlash : '/' ∉ c)
      (at_next : At (pre ++ c ++ ['/']) rest' v')
      (made : v'.calls = v.calls ++ [pre ++ c ++ ['/']]) : Turned mkdir pre rest v (.again v')
  | last {v' : Vars} (within : v'.buf.Within maxPathLen) (len : v'.len = 0)
      (made : v'.calls = v.calls ++ loopDirs pre rest) : Turned mkdir pre rest v (.again v')

/-- The variables after a component and a slash were put into the buffer. -/
def filled (v : Vars) (pre c : CString) (buf : Buffer) : Vars :=
  { v with
    buf := buf
    bufpos := pre.length + c.length + 1
    buflen := maxPathLen - (pre.length + c.length + 1)
    calls := v.calls ++ [pre ++ c ++ ['/']] }

section Rounds

variable {mkdir : Mkdir} {pre rest c post : CString} {v : Vars}

theorem At.len_lt (h : At pre rest v) : v.len < 2 ^ 32 := by
  have hfits := h.fits
  rw [maxPathLen] at hfits
  rw [h.len]
  omega

/-- A component, and a slash behind it, are put into the buffer. -/
theorem fill_spec (h : At pre (c ++ post) v) (hroom : pre.length + c.length + 1 < maxPathLen)
    (hnul : nul ∉ pre ++ c) : ∃ buf : Buffer, buf.Within maxPathLen ∧
      buf.Holds (pre ++ c ++ ['/']) ∧
      fill (pre ++ (c ++ post)) c.length v = some (filled v pre c buf) := by
  have hmax : maxPathLen < 2 ^ 32 := by rw [maxPathLen]; norm_num
  have hread : peekRange (pre ++ (c ++ post)) v.ptr c.length = some c := by
    rw [h.ptr, ← List.append_assoc, peekRange_append]
  have hlength : (pre ++ c ++ ['/']).length = pre.length + c.length + 1 := by
    rw [List.length_append, List.length_append, List.length_singleton]
  have hpos : wrap (pre.length + c.length) = (pre ++ c).length := by
    rw [wrap_of_lt (by omega), List.length_append]
  have hpos' : wrap ((pre ++ c).length + 1) = (pre ++ c ++ ['/']).length := by
    rw [hlength, List.length_append, wrap_of_lt (by omega)]
  have hleft : wrapSub (wrapSub v.buflen c.length) 1 =
      maxPathLen - (pre.length + c.length + 1) := by
    rw [h.buflen, wrapSub_of_le (a := maxPathLen - pre.length) (by omega) (by omega),
      wrapSub_of_le (by omega) (by omega)]
    omega
  have hcopied : (v.buf.copy pre.length c).Holds (pre ++ c) := h.holds.copy c
  have hholds := (hcopied.store '/').store nul
  have hslash : nul ∉ pre ++ c ++ ['/'] := fun hmem => by
    rcases List.mem_append.mp hmem with hmem | hmem
    · exact hnul hmem
    · exact absurd (List.mem_singleton.mp hmem) (by decide)
  refine ⟨_, ?_, hholds.left, ?_⟩
  · refine ((h.within.copy ?_).store ?_ '/').store ?_ nul
    · omega
    · rw [List.length_append]
      omega
    · rw [hlength]
      exact hroom
  · rw [fill, hread]
    simp only [Option.bind_eq_bind, Option.bind_some, h.bufpos, hpos, hpos', hleft]
    rw [hholds.string hslash (by rw [hlength]; exact hroom), hlength]
    rfl

/-- The loop goes on behind the slash. -/
theorem advance_next (pre c post : CString) (hptr : v.ptr = pre.length)
    (hlen : v.len = (c ++ '/' :: post).length) (hlt : v.len < 2 ^ 32) :
    advance c.length v =
      if post = [] then .leave .through { v with ptr := (pre ++ c ++ ['/']).length, len := 0 }
      else .again { v with ptr := (pre ++ c ++ ['/']).length, len := post.length } := by
  have hlength : (c ++ '/' :: post).length = c.length + (post.length + 1) := by
    rw [List.length_append, List.length_cons]
  have hbehind : wrapSub v.len c.length = post.length + 1 := by
    rw [wrapSub_of_le hlt (by omega)]
    omega
  have hrest : wrapSub (post.length + 1) 1 = post.length := by
    rw [wrapSub_of_le (by omega) (by omega)]
    omega
  have hptr' : v.ptr + c.length + 1 = (pre ++ c ++ ['/']).length := by
    rw [hptr, List.length_append, List.length_append, List.length_singleton]
  simp only [advance, hbehind, hrest, hptr', List.length_eq_zero_iff]
  rw [if_pos (Nat.succ_ne_zero _)]
  split_ifs with hpost
  · rw [hpost, List.length_nil]
  · rfl

/-- The loop goes on behind the end of the path. -/
theorem advance_last (hlen : v.len = c.length) (hlt : v.len < 2 ^ 32) :
    advance c.length v = .again { v with ptr := v.ptr + c.length, len := 0 } := by
  have hbehind : wrapSub v.len c.length = 0 := by
    rw [wrapSub_of_le hlt (by omega)]
    omega
  simp only [advance, hbehind, ne_eq, not_true_eq_false, if_false]

/-- Whatever `install_mkdir` answers, the loop is left, or the round is ended. -/
theorem round_of_fill (mkdir : Mkdir) {dir : CString} {v' : Vars} {ptr2 : Option ℕ} {pos : ℕ}
    {atEnd : Bool} (hlen : v.len ≠ 0) (hstr : strchr dir v.ptr '/' = some ptr2)
    (hpos : component v ptr2 = (pos, atEnd))
    (hroom : ¬ v.buflen ≤ wrap (pos + 1))
    (hfill : fill dir pos { v with atEnd := atEnd } = some v') :
    round mkdir dir v = some (.leave .failed v') ∧ (mkdir v'.calls).result = -1 ∨
      round mkdir dir v = some (advance pos v') := by
  have hround : round mkdir dir v = some (if (mkdir v'.calls).result = -1 then
      if !v'.atEnd then
        if (mkdir v'.calls).errno ≠ some .exists ∧ (mkdir v'.calls).errno ≠ some .isDirectory then
          .leave .failed v'
        else advance pos v'
      else .leave .failed v'
    else advance pos v') := by
    rw [round, if_neg hlen, hstr]
    simp only [Option.bind_eq_bind, Option.bind_some, hpos, if_neg hroom, hfill]
    split_ifs <;> rfl
  rw [hround]
  split_ifs with hresult
  · exact Or.inl ⟨rfl, hresult⟩
  · exact Or.inr rfl
  · exact Or.inl ⟨rfl, hresult⟩
  · exact Or.inr rfl

theorem length_slash (c post : CString) :
    (c ++ '/' :: post).length = c.length + (post.length + 1) := by
  rw [List.length_append, List.length_cons]

/-- A round on a component with a slash behind it. -/
theorem round_slash (h : At pre (c ++ '/' :: post) v) (hc : '/' ∉ c)
    (hnul : nul ∉ pre ++ (c ++ '/' :: post)) : ∃ turn,
    round mkdir (pre ++ (c ++ '/' :: post)) v = some turn ∧
      Turned mkdir pre (c ++ '/' :: post) v turn := by
  have hfits := h.fits
  have hmax : maxPathLen < 2 ^ 32 := by rw [maxPathLen]; norm_num
  rw [length_slash] at hfits
  have hne : v.len ≠ 0 := by
    rw [h.len, length_slash]
    omega
  have hstr : strchr (pre ++ (c ++ '/' :: post)) v.ptr '/' =
      some (some (pre.length + c.length)) := by
    rw [h.ptr, ← List.append_assoc, strchr_append hc]
  have hpos : component v (some (pre.length + c.length)) = (c.length, v.atEnd) := by
    rw [component, h.ptr, Nat.add_sub_cancel_left, wrap_of_lt (by omega)]
  have hroom : ¬ v.buflen ≤ wrap (c.length + 1) := by
    rw [h.buflen, wrap_of_lt (by omega)]
    omega
  obtain ⟨buf, hwithin, hholds, hfill⟩ := fill_spec h (by omega) fun hmem =>
    hnul (by rw [← List.append_assoc]; exact List.mem_append_left _ hmem)
  have hdirs := loopDirs_slash pre c post hc
  rcases round_of_fill mkdir hne hstr hpos hroom hfill with ⟨hround, hresult⟩ | hround
  · refine ⟨_, hround, .leaves (ran_failed hwithin rfl ?_ hresult)⟩
    rw [hdirs]
    exact List.prefix_append [_] _
  · have hadvance := advance_next (v := filled v pre c buf) pre c post h.ptr h.len h.len_lt
    rw [hadvance] at hround
    refine ⟨_, hround, ?_⟩
    split_ifs with hpost
    · refine .leaves (ran_through hwithin ?_)
      rw [hdirs, hpost]
      rfl
    · have hlength : (pre ++ c ++ ['/']).length = pre.length + c.length + 1 := by
        rw [List.length_append, List.length_append, List.length_singleton]
      refine .next rfl hc ⟨rfl, rfl, hlength.symm, ?_, ?_, hholds, hwithin⟩ rfl
      · rw [hlength]
        rfl
      · rw [hlength]
        omega

/-- A round on the last component, with no slash behind it. -/
theorem round_last (h : At pre rest v) (hnil : rest ≠ []) (hrest : '/' ∉ rest)
    (hnul : nul ∉ pre ++ rest) :
    ∃ turn, round mkdir (pre ++ rest) v = some turn ∧ Turned mkdir pre rest v turn := by
  have hfits := h.fits
  have hmax : maxPathLen < 2 ^ 32 := by rw [maxPathLen]; norm_num
  have hne : v.len ≠ 0 := by
    rw [h.len]
    exact List.length_eq_zero_iff.not.mpr hnil
  have hstr : strchr (pre ++ rest) v.ptr '/' = some none := by rw [h.ptr, strchr_of_notMem hrest]
  have hpos : component v none = (rest.length, true) := by rw [component, h.len]
  have hdirs : loopDirs pre rest = _ := loopDirs_last hnil hrest
  by_cases hroom : v.buflen ≤ wrap (rest.length + 1)
  · refine ⟨.leave .through { v with atEnd := true }, ?_, ?_⟩
    · rw [round, if_neg hne, hstr]
      simp only [Option.bind_eq_bind, Option.bind_some, hpos, if_pos hroom]
      rfl
    · rw [h.buflen, wrap_of_lt (by omega)] at hroom
      refine .leaves (ran_through h.within ?_)
      rw [hdirs, if_pos (by omega), List.append_nil]
  · have hend : At pre (rest ++ []) { v with atEnd := true } := by
      rw [List.append_nil]
      exact ⟨h.ptr, h.len, h.bufpos, h.buflen, h.fits, h.holds, h.within⟩
    rw [h.buflen, wrap_of_lt (by omega)] at hroom
    obtain ⟨buf, hwithin, -, hfill⟩ := fill_spec hend (by omega) hnul
    rw [List.append_nil] at hfill
    rw [if_neg (by omega)] at hdirs
    have hroom : ¬ v.buflen ≤ wrap (rest.length + 1) := by
      rw [h.buflen, wrap_of_lt (by omega)]
      exact hroom
    rcases round_of_fill mkdir hne hstr hpos hroom hfill with ⟨hround, hresult⟩ | hround
    · refine ⟨_, hround, .leaves (ran_failed hwithin rfl ?_ hresult)⟩
      rw [hdirs]
    · have hadvance :=
        advance_last (v := filled { v with atEnd := true } pre rest buf) h.len h.len_lt
      rw [hadvance] at hround
      refine ⟨_, hround, .last hwithin rfl ?_⟩
      rw [hdirs]
      rfl

/-- **One round.** -/
theorem round_spec (mkdir : Mkdir) (h : At pre rest v) (hnul : nul ∉ pre ++ rest) :
    ∃ turn, round mkdir (pre ++ rest) v = some turn ∧ Turned mkdir pre rest v turn := by
  by_cases hmem : '/' ∈ rest
  · obtain ⟨c, post, rfl, hc⟩ := List.eq_append_cons_of_mem hmem
    exact round_slash h hc hnul
  · by_cases hnil : rest = []
    · refine ⟨.leave .through v, by rw [round, if_pos (by simp [h.len, hnil])], ?_⟩
      refine .leaves (ran_through h.within ?_)
      simp [hnil, loopDirs, dirsAlong]
    · exact round_last h hnil hmem hnul

theorem Ran.cons {pre c rest' : CString} {v v' w : Vars} {e : Ending} (hc : '/' ∉ c)
    (made : v'.calls = v.calls ++ [pre ++ c ++ ['/']])
    (h : Ran mkdir (pre ++ c ++ ['/']) rest' v' e w) :
    Ran mkdir pre (c ++ '/' :: rest') v e w := by
  obtain ⟨calls, hcalls, hprefix, hall⟩ := h.calls
  refine ⟨h.within, h.proper, h.refused, (pre ++ c ++ ['/']) :: calls, ?_, ?_, fun he => ?_⟩
  · rw [hcalls, made, List.append_assoc, List.singleton_append]
  · rw [loopDirs_slash pre c rest' hc]
    exact List.cons_prefix_cons.mpr ⟨rfl, hprefix⟩
  · rw [loopDirs_slash pre c rest' hc, hall he]

/-- A round that is left. -/
theorem rounds_leave {dir : CString} {k : ℕ} {e : Ending} {v' : Vars}
    (h : round mkdir dir v = some (.leave e v')) : rounds mkdir dir (k + 1) v = some (e, v') := by
  rw [rounds, h]
  rfl

theorem rounds_again {dir : CString} {k : ℕ} {v' : Vars}
    (h : round mkdir dir v = some (.again v')) :
    rounds mkdir dir (k + 1) v = rounds mkdir dir k v' := by
  rw [rounds, h]
  rfl

/-- **The loop ends**, and does what it should. -/
theorem rounds_spec (mkdir : Mkdir) : ∀ (n : ℕ) {pre rest : CString} {v : Vars}, rest.length = n →
    At pre rest v → nul ∉ pre ++ rest → ∃ e v',
      (∀ k, n + 2 ≤ k → rounds mkdir (pre ++ rest) k v = some (e, v')) ∧
        Ran mkdir pre rest v e v' := by
  intro n
  induction n using Nat.strong_induction_on with
  | _ n ih =>
    intro pre rest v hn h hnul
    obtain ⟨turn, hround, hturn⟩ := round_spec mkdir h hnul
    have hsucc : ∀ k, n + 2 ≤ k → ∃ k', k = k' + 1 ∧ n + 1 ≤ k' := fun k hk =>
      ⟨k - 1, by omega, by omega⟩
    cases hturn with
    | @leaves e v' ran =>
      refine ⟨e, v', fun k hk => ?_, ran⟩
      obtain ⟨k, rfl, -⟩ := hsucc k hk
      exact rounds_leave hround
    | @next c rest' v' split noSlash at_next made =>
      subst split
      rw [length_slash] at hn
      have hpath : pre ++ (c ++ '/' :: rest') = pre ++ c ++ ['/'] ++ rest' := by simp
      obtain ⟨e, w, hrun, hran⟩ := ih rest'.length (by omega) rfl at_next (hpath ▸ hnul)
      refine ⟨e, w, fun k hk => ?_, hran.cons noSlash made⟩
      obtain ⟨k, rfl, hk⟩ := hsucc k hk
      rw [rounds_again hround, hpath]
      exact hrun k (by omega)
    | @last v' within len made =>
      refine ⟨.through, v', fun k hk => ?_, ran_through within made⟩
      obtain ⟨k, rfl, hk⟩ := hsucc k hk
      obtain ⟨k, rfl⟩ : ∃ k', k = k' + 1 := ⟨k - 1, by omega⟩
      rw [rounds_again hround]
      exact rounds_leave (by rw [round, if_pos len])

end Rounds

/-! ### The whole function -/

/-- On a path that fits, `install_rmkdir` ends, stays within its buffer, and passes to
`install_mkdir` the directories that `wp_rmkdirLoop` is about, in their order. -/
theorem installRmkdir_ran (mkdir : Mkdir) (garbage : ℕ → Char) {dir : CString} (hnul : nul ∉ dir)
    (hlen : dir.length < maxPathLen) : ∃ e v, (∀ k, dir.length + 2 ≤ k →
      installRmkdir mkdir garbage dir k = some (e, v)) ∧ v.buf.Within maxPathLen ∧
      v.calls <+: loopDirs [] dir ∧ (e = .through ∧ v.calls = loopDirs [] dir ∨
        e = .failed ∧ (mkdir v.calls).result = -1) := by
  have hmax : maxPathLen < 2 ^ 32 := by rw [maxPathLen]; norm_num
  have hwrap : wrap dir.length = dir.length := wrap_of_lt (by omega)
  have hstart : At [] dir ⟨0, wrap dir.length, maxPathLen, 0, false, .fresh garbage, []⟩ :=
    ⟨rfl, hwrap, rfl, rfl, by simpa using hlen, holds_nil _, within_fresh _ _⟩
  obtain ⟨e, v, hrun, hran⟩ := rounds_spec mkdir dir.length rfl hstart hnul
  obtain ⟨calls, hcalls, hprefix, hall⟩ := hran.calls
  obtain rfl : v.calls = calls := hcalls
  refine ⟨e, v, fun k hk => ?_, hran.within, hprefix, ?_⟩
  · have hshort : ¬ maxPathLen ≤ wrap dir.length := by omega
    simp only [installRmkdir, if_neg hshort]
    exact hrun k hk
  · cases e with
    | tooLong => exact absurd rfl hran.proper
    | failed => exact Or.inr ⟨rfl, hran.refused rfl⟩
    | through => exact Or.inl ⟨rfl, hall rfl⟩

/-- The parts of a path up to each of its slashes, and the whole path with a slash behind it, if it
has none there. -/
def slashPrefixes (dir : CString) : List CString :=
  ((List.range dir.length).filter fun i => dir[i]? = some '/').map (fun i => dir.take (i + 1)) ++
    if dir ≠ [] ∧ dir.getLast? ≠ some '/' then [dir ++ ['/']] else []

theorem dirsAlong_eq (pre rest : CString) : dirsAlong pre rest =
    ((List.range rest.length).filter fun i => rest[i]? = some '/').map
      fun i => pre ++ rest.take (i + 1) := by
  induction rest generalizing pre with
  | nil => rfl
  | cons c cs ih =>
    have hshift : (((List.range cs.length).map Nat.succ).filter fun i =>
          (c :: cs)[i]? = some '/').map (fun i => pre ++ (c :: cs).take (i + 1)) =
        dirsAlong (pre ++ [c]) cs := by
      rw [ih, List.filter_map, List.map_map]
      simp [Function.comp_def]
    rw [List.length_cons, List.range_succ_eq_map, List.filter_cons]
    by_cases hc : c = '/'
    · simp only [hc, List.getElem?_cons_zero, decide_true, if_true, List.map_cons] at hshift ⊢
      rw [dirsAlong, if_pos rfl, hshift]
      rfl
    · simp only [List.getElem?_cons_zero, Option.some.injEq, hc, decide_false, Bool.false_eq_true,
        if_false]
      rw [dirsAlong, if_neg hc, hshift]

/-- The directories along a path, by the places of its slashes. -/
theorem slashPrefixes_eq (dir : CString) : slashPrefixes dir = pathDirs dir := by
  unfold slashPrefixes pathDirs
  rw [dirsAlong_eq]
  by_cases hdir : dir = [] ∨ Slashed dir
  · have hno : ¬ (dir ≠ [] ∧ dir.getLast? ≠ some '/') := fun h => hdir.elim h.1 h.2
    rw [if_pos hdir, if_neg hno]
    rfl
  · have hyes : dir ≠ [] ∧ dir.getLast? ≠ some '/' := not_or.mp hdir
    rw [if_neg hdir, if_pos hyes]
    rfl

/-- **The loop of `install_rmkdir` is exact and in bounds**, for every path that leaves room for a
slash and a zero: where no call of `install_mkdir` makes the function return, the calls are those on
the parts of the path. -/
theorem rmkdir_exact (mkdir : Mkdir) (garbage : ℕ → Char) {dir : CString} (hnul : nul ∉ dir)
    (hlen : dir.length ≤ maxPathLen - 2) : ∃ e v, (∀ k, dir.length + 2 ≤ k →
      installRmkdir mkdir garbage dir k = some (e, v)) ∧ (∀ i ∈ v.buf.writes, i < maxPathLen) ∧
      (e = .through ∧ v.calls = slashPrefixes dir ∨
        e = .failed ∧ (mkdir v.calls).result = -1) := by
  have hmax : maxPathLen = 1024 := rfl
  obtain ⟨e, v, hrun, hwithin, -, hend⟩ :=
    installRmkdir_ran mkdir garbage hnul (by omega : dir.length < maxPathLen)
  have hfits : dir = [] ∨ Slashed dir ∨ dir.length + 1 < maxPathLen := .inr (.inr (by omega))
  refine ⟨e, v, hrun, hwithin, hend.imp_left fun ⟨he, hcalls⟩ => ⟨he, ?_⟩⟩
  rw [slashPrefixes_eq, pathDirs_eq, if_pos hfits, List.append_nil, hcalls]

theorem rmkdir_exact_slashes : ∃ v, (∀ k, 7 ≤ k → installRmkdir (fun _ => ⟨1, none⟩)
      (fun _ => '?') "/a//b".toList k = some (.through, v)) ∧
    (∀ i ∈ v.buf.writes, i < maxPathLen) ∧
    v.calls = ["/".toList, "/a/".toList, "/a//".toList, "/a//b/".toList] := by
  obtain ⟨e, v, hrun, hwithin, ⟨rfl, hcalls⟩ | ⟨-, hresult⟩⟩ :=
    rmkdir_exact (fun _ => ⟨1, none⟩) (fun _ => '?') (by decide : nul ∉ "/a//b".toList) (by decide)
  · exact ⟨v, hrun, hwithin, hcalls.trans (by decide)⟩
  · exact absurd hresult (by decide)

end LuaAdaLoad.Install.PathBuffer
