import Mathlib.Tactic

/-!
# Binary64 numbers and integers of a fixed range

A finite binary64 number is an integer multiple of the smallest positive one, `2 ^ (-1074)`: it is
kept as that integer (`units`), so that the integer `n` is `n * one`. Only integers `m * 2 ^ e` with
`m < 2 ^ 53` and `e ≤ 2045` occur (`Fits`). The two zeros are one value.

* `Ranged lo hi`: the integers of a fixed range.
* `roundAway`: the nearest integer, halves away from zero.
* `toRanged`: conversion to an integer of a range, `none` where it has no such value.
* `ofNat53`, `ofRanged`: the nearest binary64 number of an integer, ties to even.
-/

namespace LuaAdaLoad.Number.Floats

/-- The integers from `lo` to `hi`. -/
structure Ranged (lo hi : ℤ) where
  val : ℤ
  le_val : lo ≤ val
  val_le : val ≤ hi
deriving DecidableEq

/-- The number one, in units of `2 ^ (-1074)`. -/
def one : ℤ := 2 ^ 1074

/-- The magnitudes, in units, of the finite numbers. -/
def Fits (k : ℕ) : Prop := ∃ m e : ℕ, m < 2 ^ 53 ∧ e ≤ 2045 ∧ k = m * 2 ^ e

/-- Binary64 numbers; `finite` counts in units of `2 ^ (-1074)`. -/
inductive Binary64 where
  | finite (units : ℤ) (fits : Fits units.natAbs)
  | infinity (negative : Bool)
  | nan
deriving DecidableEq

/-- The integer nearest to a number of units, halves away from zero. -/
def roundAway (units : ℤ) : ℤ :=
  if 0 ≤ units then (2 * units + one) / (2 * one) else -((2 * -units + one) / (2 * one))

/-- The integer of the range that a number is converted to: the nearest one, if it is in the range;
an infinity and a NaN have none. -/
def toRanged (lo hi : ℤ) : Binary64 → Option (Ranged lo hi)
  | .finite units _ =>
    if h : lo ≤ roundAway units ∧ roundAway units ≤ hi then some ⟨roundAway units, h.1, h.2⟩
    else none
  | _ => none

/-- A natural number rounded to 53 significant bits, ties to even. -/
def ofNat53 (a : ℕ) : ℕ :=
  if a < 2 ^ 53 then a
  else
    let k := Nat.log2 a - 52
    let q := a / 2 ^ k
    let r := a % 2 ^ k
    (if 2 * r < 2 ^ k ∨ (2 * r = 2 ^ k ∧ q % 2 = 0) then q else q + 1) * 2 ^ k

theorem div_pow_log2 {a : ℕ} (h : 2 ^ 53 ≤ a) : a / 2 ^ (Nat.log2 a - 52) < 2 ^ 53 := by
  have hlog : 52 ≤ Nat.log2 a := (Nat.le_log2 (by omega)).mpr (by omega)
  have hlt : a < 2 ^ (Nat.log2 a + 1) := Nat.lt_log2_self
  rw [Nat.div_lt_iff_lt_mul (by positivity), ← pow_add]
  have : 53 + (Nat.log2 a - 52) = Nat.log2 a + 1 := by omega
  rw [this]; exact hlt

/-- Rounding to 53 bits gives a finite number. -/
theorem fits_ofNat53 {a : ℕ} (h : a ≤ 2 ^ 64) : Fits (ofNat53 a * 2 ^ 1074) := by
  unfold ofNat53
  split_ifs with h53
  · exact ⟨a, 1074, h53, by norm_num, rfl⟩
  · have hlog : Nat.log2 a < 65 := (Nat.log2_lt (by omega)).mpr (by omega)
    have hq := div_pow_log2 (not_lt.mp h53)
    set k := Nat.log2 a - 52 with hk
    simp only
    split_ifs with hr
    · exact ⟨a / 2 ^ k, k + 1074, hq, by omega, by rw [pow_add, mul_assoc]⟩
    · rcases Nat.lt_or_ge (a / 2 ^ k + 1) (2 ^ 53) with hlt | hge
      · exact ⟨a / 2 ^ k + 1, k + 1074, hlt, by omega, by rw [pow_add, mul_assoc]⟩
      · -- the carry: `2 ^ 53 * 2 ^ k` is `2 ^ 52 * 2 ^ (k + 1)`
        refine ⟨2 ^ 52, k + 1 + 1074, by norm_num, by omega, ?_⟩
        have hcarry : a / 2 ^ k + 1 = 2 ^ 52 * 2 := by omega
        have hpow : 2 ^ (k + 1 + 1074) = 2 ^ k * 2 * 2 ^ 1074 := by
          rw [pow_add 2 (k + 1) 1074, pow_succ 2 k]
        rw [hcarry, hpow]
        generalize 2 ^ 1074 = d
        rw [mul_assoc (2 ^ 52), mul_comm 2 (2 ^ k), mul_assoc (2 ^ 52)]

/-- The sign of an integer, applied to a magnitude. -/
def withSign (n : ℤ) (k : ℕ) : ℤ := if 0 ≤ n then k else -k

@[simp] theorem natAbs_withSign (n : ℤ) (k : ℕ) : (withSign n k).natAbs = k := by
  unfold withSign; split_ifs <;> simp

/-- The number nearest to an integer of a range, ties to even. -/
def ofRanged {lo hi : ℤ} (h : -2 ^ 64 ≤ lo ∧ hi ≤ 2 ^ 64) (n : Ranged lo hi) : Binary64 :=
  .finite (withSign n.val (ofNat53 n.val.natAbs * 2 ^ 1074)) <| by
    rw [natAbs_withSign]
    refine fits_ofNat53 ?_
    have h₁ := n.le_val
    have h₂ := n.val_le
    omega

/-- A conversion of a finite number: its nearest integer, if that is in the range. -/
theorem toRanged_finite (lo hi units : ℤ) (fits : Fits units.natAbs) :
    toRanged lo hi (.finite units fits) =
      if h : lo ≤ roundAway units ∧ roundAway units ≤ hi then some ⟨roundAway units, h.1, h.2⟩
      else none := rfl

/-! ### Integers that are kept exactly -/

/-- The natural numbers of at most 53 significant bits. -/
def FewBits (a : ℕ) : Prop := ∃ m e : ℕ, m < 2 ^ 53 ∧ a = m * 2 ^ e

/-- **Rounding to 53 bits** changes nothing just where there are no more bits. -/
theorem ofNat53_eq_self_iff {a : ℕ} : ofNat53 a = a ↔ FewBits a := by
  unfold ofNat53
  split_ifs with h53
  · exact ⟨fun _ => ⟨a, 0, h53, by simp⟩, fun _ => rfl⟩
  have hlog : 52 ≤ Nat.log2 a := (Nat.le_log2 (by omega)).mpr (by omega)
  have hq := div_pow_log2 (not_lt.mp h53)
  constructor
  · intro h
    refine ⟨a / 2 ^ (Nat.log2 a - 52), Nat.log2 a - 52, hq, ?_⟩
    set k := Nat.log2 a - 52
    have hdvd : 2 ^ k ∣ a := ⟨_, h.symm.trans (Nat.mul_comm _ _)⟩
    exact (Nat.div_mul_cancel hdvd).symm
  · rintro ⟨m, e, hm, ha⟩
    have hlt : a < 2 ^ (53 + e) := by
      rw [ha, pow_add]
      exact Nat.mul_lt_mul_of_pos_right hm (by positivity)
    have he : Nat.log2 a - 52 ≤ e := by
      have : Nat.log2 a < 53 + e := (Nat.log2_lt (by omega)).mpr hlt
      omega
    have hdvd : 2 ^ (Nat.log2 a - 52) ∣ a := 
      (pow_dvd_pow 2 he).trans ⟨m, ha.trans (Nat.mul_comm _ _)⟩
    have hzero : a % 2 ^ (Nat.log2 a - 52) = 0 := Nat.mod_eq_zero_of_dvd hdvd
    have hpos : 0 < 2 ^ (Nat.log2 a - 52) := by positivity
    simp only [hzero, mul_zero, hpos, true_or, if_true]
    exact Nat.div_mul_cancel hdvd

/-- A multiple of the unit is its own nearest integer. -/
theorem nearest_of_multiple {u : ℤ} (hu : 0 < u) (k : ℕ) : (2 * (k * u) + u) / (2 * u) = k := by
  have hsplit : 2 * (k * u) + u = u + k * (2 * u) := by ring
  rw [hsplit, Int.add_mul_ediv_right _ _ (by omega), Int.ediv_eq_zero_of_lt hu.le (by omega),
    zero_add]

theorem roundAway_withSign (n : ℤ) (k : ℕ) :
    roundAway (withSign n (k * 2 ^ 1074)) = withSign n k := by
  have hunit : ((k * 2 ^ 1074 : ℕ) : ℤ) = k * one := by
    rw [one, Nat.cast_mul, Nat.cast_pow, Nat.cast_ofNat]
  have hpos : 0 < one := by
    rw [one]
    positivity
  unfold roundAway withSign
  rw [hunit]
  clear hunit
  generalize one = u at hpos
  have hnonneg : 0 ≤ (k : ℤ) * u := by positivity
  by_cases hn : 0 ≤ n
  · rw [if_pos hn, if_pos hn, if_pos hnonneg, nearest_of_multiple hpos]
  · rw [if_neg hn, if_neg hn]
    split_ifs with hneg
    · have hk : (k : ℤ) * u = 0 := by omega
      rw [hk, neg_zero, mul_zero, zero_add, Int.ediv_eq_zero_of_lt hpos.le (by omega)]
      rcases mul_eq_zero.mp hk with hk | hu
      · omega
      · omega
    · rw [neg_neg, nearest_of_multiple hpos]

/-- **There and back again**: an integer comes back from its nearest number just if it has at most
53 significant bits. -/
theorem toRanged_ofRanged_iff {lo hi : ℤ} (h : -2 ^ 64 ≤ lo ∧ hi ≤ 2 ^ 64) (n : Ranged lo hi) :
    toRanged lo hi (ofRanged h n) = some n ↔ FewBits n.val.natAbs := by
  rw [← ofNat53_eq_self_iff, ofRanged, toRanged_finite, roundAway_withSign]
  have hself : withSign n.val n.val.natAbs = n.val := by
    unfold withSign
    split_ifs <;> omega
  constructor
  · intro hsome
    split_ifs at hsome with hrange
    have hval : withSign n.val (ofNat53 n.val.natAbs) = n.val :=
      congrArg Ranged.val (Option.some.inj hsome)
    have habs := congrArg Int.natAbs hval
    rwa [natAbs_withSign] at habs
  · intro hexact
    rw [hexact, hself]
    exact dif_pos ⟨n.le_val, n.val_le⟩

end LuaAdaLoad.Number.Floats
