import LuaAdaLoad.Text.Dotted

/-!
# Strings of the Ada library

The operations of `Ada.Strings.Unbounded`, `Ada.Strings.Fixed` and of the attribute `'Image` that
the program uses, on lists of characters. Positions count from 1, and 0 stands for "not found".
-/

namespace LuaAdaLoad.Text.Strings

open LuaAdaLoad.Text.Dotted

/-- Strings, bounded and unbounded. -/
abbrev UString := List Char

/-- `Index (source, pattern, from, Backward)` for a pattern of one character: the last position up
to `start` that holds it. -/
def indexBackward (source : UString) (pattern : Char) : ℕ → ℕ
  | 0 => 0
  | k + 1 => if source[k]? = some pattern then k + 1 else indexBackward source pattern k

/-- `Head (source, count)`: the first `count` characters, padded with blanks. -/
def head (source : UString) (count : ℕ) : UString :=
  source.take count ++ List.replicate (count - source.length) ' '

/-- The decimal image of an integer, with a blank in the place of the sign where it has none. -/
def image (n : ℤ) : UString :=
  (if 0 ≤ n then ' ' else '-') :: Nat.toDigits 10 n.natAbs

/-- `Trim (source, Left)`. -/
def trimLeft (source : UString) : UString := source.dropWhile fun c => c = ' '

/-! ### The last position of a character -/

theorem indexBackward_skip {source : UString} {pattern : Char} {k : ℕ} :
    ∀ {m : ℕ}, k ≤ m → (∀ i, k ≤ i → i < m → source[i]? ≠ some pattern) →
      indexBackward source pattern m = indexBackward source pattern k
  | 0, hk, _ => by rw [Nat.le_zero.mp hk]
  | m + 1, hk, h => by
    rcases Nat.lt_or_ge m k with hlt | hge
    · rw [show k = m + 1 by omega]
    · rw [indexBackward, if_neg (h m hge (Nat.lt_succ_self m)),
        indexBackward_skip hge fun i h₁ h₂ => h i h₁ (by omega)]

theorem indexBackward_append {a b : UString} {pattern : Char} (h : pattern ∉ b) :
    indexBackward (a ++ pattern :: b) pattern (a ++ pattern :: b).length = a.length + 1 := by
  rw [indexBackward_skip (k := a.length + 1)]
  · rw [indexBackward, if_pos (by simp)]
  · simp
  · intro i h₁ h₂ hi
    rw [List.getElem?_append_right (by omega)] at hi
    obtain ⟨j, hj⟩ : ∃ j, i - a.length = j + 1 := ⟨i - a.length - 1, by omega⟩
    rw [hj, List.getElem?_cons_succ] at hi
    exact h (List.mem_of_getElem? hi)

theorem indexBackward_of_notMem {a : UString} {pattern : Char} (h : pattern ∉ a) (m : ℕ) :
    indexBackward a pattern m = 0 :=
  indexBackward_skip (Nat.zero_le m) fun _ _ _ hi => h (List.mem_of_getElem? hi)

/-- Taking what stands before the last occurrence of a character cuts there. -/
theorem head_indexBackward (a : UString) (pattern : Char) :
    head a (indexBackward a pattern a.length - 1) = cutLast pattern a := by
  by_cases h : pattern ∈ a
  · obtain ⟨c, d, rfl, hd⟩ := exists_last_sep h
    rw [indexBackward_append hd, cutLast_append hd]
    simp [head]
  · rw [indexBackward_of_notMem h, cutLast_of_notMem h]
    simp [head]

/-! ### Images of integers -/

/-- Trimming takes the blank of an image away, and nothing else. -/
theorem trimLeft_image (n : ℤ) : trimLeft (image n) =
    if 0 ≤ n then Nat.toDigits 10 n.natAbs else '-' :: Nat.toDigits 10 n.natAbs := by
  unfold image trimLeft
  split_ifs with hn
  · rw [List.dropWhile_cons_of_pos (by simp)]
    refine List.dropWhile_eq_self_iff.mpr fun hpos hblank => ?_
    have hdigit := Nat.isDigit_of_mem_toDigits (by norm_num) (by norm_num) (List.getElem_mem hpos)
    rw [of_decide_eq_true hblank] at hdigit
    exact absurd hdigit (by decide)
  · rw [List.dropWhile_cons_of_neg (by simp)]

/-- The trimmed image of an integer holds only digits and a minus sign. -/
theorem mem_trimLeft_image {n : ℤ} {c : Char} (h : c ∈ trimLeft (image n)) :
    c.isDigit = true ∨ c = '-' := by
  have hc : c ∈ Nat.toDigits 10 n.natAbs ∨ c = '-' := by
    rw [trimLeft_image] at h
    split_ifs at h
    · exact Or.inl h
    · exact (List.mem_cons.mp h).symm
  rcases hc with hc | hc
  · exact Or.inl (Nat.isDigit_of_mem_toDigits (by norm_num) (by norm_num) hc)
  · exact Or.inr hc

theorem dot_notMem_trimLeft_image (n : ℤ) : '.' ∉ trimLeft (image n) := by
  intro h
  rcases mem_trimLeft_image h with h | h
  · exact absurd h (by decide)
  · exact absurd h (by decide)

theorem minus_notMem_toDigits (n : ℕ) : '-' ∉ Nat.toDigits 10 n := fun h =>
  absurd (Nat.isDigit_of_mem_toDigits (by norm_num) (by norm_num) h) (by decide)

theorem toDigits_injective : Function.Injective (Nat.toDigits 10) :=
  Function.LeftInverse.injective (g := fun ds => Nat.ofDigitChars 10 ds 0) fun _ =>
    Nat.ofDigitChars_ten_toDigits

/-- **The trimmed image** of an integer tells its sign and its digits. -/
theorem trimLeft_image_injective : Function.Injective fun n => trimLeft (image n) := by
  intro m n h
  simp only [trimLeft_image] at h
  split_ifs at h with hm hn hn
  · have habs := toDigits_injective h
    omega
  · exact absurd (h ▸ List.mem_cons_self) (minus_notMem_toDigits m.natAbs)
  · exact absurd (h ▸ List.mem_cons_self) (minus_notMem_toDigits n.natAbs)
  · have habs := toDigits_injective (List.cons.inj h).2
    omega

example : trimLeft (image 12) = ['1', '2'] := by decide

example : head "a.bc".toList (indexBackward "a.bc".toList '.' 4 - 1) = ['a'] := by decide

end LuaAdaLoad.Text.Strings
