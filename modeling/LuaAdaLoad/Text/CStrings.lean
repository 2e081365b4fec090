import LuaAdaLoad.Text.Initializers

/-!
# Strings of C

A string is an array of bytes that ends at its first zero. Two strings are compared byte by byte, up
to a difference or a zero; `difference` is `none` where a byte behind an array would be read. Of two
strings it is a number, and zero just if they are equal.
-/

namespace LuaAdaLoad.Text.CStrings

open LuaAdaLoad.Text.Initializers

/-- A string: the bytes before the zero. -/
@[ext]
structure CString where
  bytes : List Byte
  zero_notMem : 0 ∉ bytes
deriving DecidableEq

/-- The bytes of a string, with the zero. -/
def CString.array (s : CString) : List Byte := s.bytes ++ [0]

/-- The bytes of a text. -/
def ascii (text : List Char) : List Byte := text.map fun c => Fin.ofNat 256 c.toNat

/-- The first bytes that differ, subtracted; zero if there are none before the arrays have a zero in
one place. -/
def difference : List Byte → List Byte → Option ℤ
  | u :: s, v :: t =>
    if u ≠ v then some (u.val - v.val) else if u = 0 then some (u.val - v.val) else difference s t
  | _, _ => none

theorem val_sub_eq_zero_iff {u v : Byte} : (u.val - v.val : ℤ) = 0 ↔ u = v := by
  rw [sub_eq_zero, Nat.cast_inj, Fin.val_inj]

/-- Bytes without a zero, compared with a string. -/
theorem difference_arrays {a b : List Byte} (ha : 0 ∉ a) (hb : 0 ∉ b) :
    ∃ d, difference (a ++ [0]) (b ++ [0]) = some d ∧ (d = 0 ↔ a = b) := by
  induction a generalizing b with
  | nil =>
    cases b with
    | nil => exact ⟨0, by simp [difference]⟩
    | cons v b =>
      have hv : (0 : Byte) ≠ v := fun h => hb (h ▸ List.mem_cons_self)
      refine ⟨(0 : Byte).val - v.val, by simp [difference, hv], ?_⟩
      rw [val_sub_eq_zero_iff]
      simp [hv]
  | cons u a ih =>
    have hu : u ≠ 0 := fun h => ha (h ▸ List.mem_cons_self)
    cases b with
    | nil =>
      refine ⟨u.val - (0 : Byte).val, by simp [difference, hu], ?_⟩
      rw [val_sub_eq_zero_iff]
      simp [hu]
    | cons v b =>
      by_cases huv : u = v
      · subst huv
        obtain ⟨d, hd, hiff⟩ := ih (b := b) (fun h => ha (List.mem_cons_of_mem _ h))
          fun h => hb (List.mem_cons_of_mem _ h)
        exact ⟨d, by simp [difference, hu, hd], by simp [hiff]⟩
      · refine ⟨u.val - v.val, by simp [difference, huv], ?_⟩
        rw [val_sub_eq_zero_iff]
        simp [huv]

/-- **Strings are equal** just if their difference is zero. -/
theorem difference_eq_zero_iff (s t : CString) :
    ∃ d, difference s.array t.array = some d ∧ (d = 0 ↔ s = t) := by
  obtain ⟨d, hd, hiff⟩ := difference_arrays s.zero_notMem t.zero_notMem
  exact ⟨d, hd, hiff.trans CString.ext_iff.symm⟩

end LuaAdaLoad.Text.CStrings
