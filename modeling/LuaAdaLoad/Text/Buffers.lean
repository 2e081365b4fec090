import Mathlib.Tactic

/-!
# Buffers of characters

A buffer holds a character in every cell, whatever was in it before; which cells have been written
is recorded, so that a write outside of an array of some size can be told (`Within`). What matters
of its cells is the text that they hold from the first one on (`Holds`), and the string that a
reader finds in it, up to a zero (`string`).

Strings are read through pointers: a string has its characters and a zero, and no other place of it
can be read (`peek`, `peekRange`). Indices are unsigned numbers of 32 bits.
-/

namespace LuaAdaLoad.Text.Buffers

/-- The character that ends a string. -/
def nul : Char := '\x00'

/-! ### Unsigned numbers -/

/-- The value of a natural number as an `unsigned int`. -/
def wrap (n : ℕ) : ℕ := n % 2 ^ 32

/-- The difference of two `unsigned int`s. -/
def wrapSub (a b : ℕ) : ℕ := (a + 2 ^ 32 - b) % 2 ^ 32

/-- The value of an integer as an `unsigned int`. -/
def wrapInt (n : ℤ) : ℕ := (n % 2 ^ 32).toNat

theorem wrapInt_natCast {n : ℕ} (h : n < 2 ^ 32) : wrapInt n = n := by
  unfold wrapInt
  omega

theorem wrap_of_lt {n : ℕ} (h : n < 2 ^ 32) : wrap n = n := Nat.mod_eq_of_lt h

theorem wrapSub_of_le {a b : ℕ} (ha : a < 2 ^ 32) (hb : b ≤ a) : wrapSub a b = a - b := by
  unfold wrapSub
  omega

/-! ### Reading strings -/

/-- The character at an offset of a string; `none` outside of it. -/
def peek (s : List Char) : ℤ → Option Char
  | .ofNat i => (s ++ [nul])[i]?
  | .negSucc _ => none

/-- The characters of a range. -/
def peekRange (s : List Char) (i : ℤ) : ℕ → Option (List Char)
  | 0 => some []
  | n + 1 => do
    let c ← peek s i
    let cs ← peekRange s (i + 1) n
    return c :: cs

/-- `strchr`, from an offset on: the offset of the first place that holds the character. -/
def strchr (s : List Char) (start : ℕ) (c : Char) : Option (Option ℕ) :=
  if start ≤ s.length then
    some (if c ∈ s.drop start then some (start + (s.drop start).idxOf c) else none)
  else none

theorem peek_natCast (s : List Char) (i : ℕ) : peek s i = (s ++ [nul])[i]? := rfl

theorem peek_of_lt {s : List Char} {i : ℕ} (h : i < s.length) : peek s i = s[i]? := by
  rw [peek_natCast, List.getElem?_append_left h]

theorem peekRange_append (a b c : List Char) :
    peekRange (a ++ b ++ c) a.length b.length = some b := by
  induction b generalizing a with
  | nil => rfl
  | cons x b ih =>
    have hx : peek (a ++ x :: b ++ c) a.length = some x := by
      rw [peek_of_lt (by simp), List.append_assoc, List.getElem?_append_right (le_refl _)]
      simp
    have hrest : peekRange (a ++ x :: b ++ c) (a.length + 1) b.length = some b := by
      have := ih (a ++ [x])
      simpa using this
    rw [List.length_cons, peekRange, hx, hrest]
    rfl

theorem strchr_append {a b : List Char} {x : Char} (hb : x ∉ b) (c : List Char) :
    strchr (a ++ b ++ x :: c) a.length x = some (some (a.length + b.length)) := by
  have hdrop : (a ++ b ++ x :: c).drop a.length = b ++ x :: c := by simp
  have hidx : (b ++ x :: c).idxOf x = b.length := by
    rw [List.idxOf_append_of_notMem hb, List.idxOf_cons_self, Nat.add_zero]
  rw [strchr, if_pos (by simp), hdrop, hidx, if_pos (by simp)]

theorem strchr_of_notMem {a b : List Char} {x : Char} (hb : x ∉ b) :
    strchr (a ++ b) a.length x = some none := by
  rw [strchr, if_pos (by simp), List.drop_left, if_neg hb]

/-! ### Buffers -/

/-- What the cells hold, and the cells that have been written, in order. -/
structure Buffer where
  cells : ℕ → Char
  writes : List ℕ

/-- A buffer that has not been written. -/
def Buffer.fresh (cells : ℕ → Char) : Buffer := ⟨cells, []⟩

def Buffer.store (b : Buffer) (i : ℕ) (c : Char) : Buffer :=
  ⟨Function.update b.cells i c, b.writes ++ [i]⟩

/-- `memcpy`, of the characters given, to the cells from `i` on. -/
def Buffer.copy (b : Buffer) (i : ℕ) : List Char → Buffer
  | [] => b
  | c :: cs => (b.store i c).copy (i + 1) cs

/-- The string in the first `size` cells, if it ends there. -/
def Buffer.string (b : Buffer) (size : ℕ) : Option (List Char) :=
  let text := (List.range size).map b.cells
  if nul ∈ text then some (text.takeWhile fun c => c ≠ nul) else none

/-- The first cells hold the text. -/
def Buffer.Holds (b : Buffer) (text : List Char) : Prop :=
  ∀ i, (h : i < text.length) → b.cells i = text[i]

/-- Only cells of an array of the size have been written. -/
def Buffer.Within (b : Buffer) (size : ℕ) : Prop := ∀ i ∈ b.writes, i < size

variable {b : Buffer} {text cs : List Char} {size i : ℕ}

theorem within_fresh (cells : ℕ → Char) (size : ℕ) : (Buffer.fresh cells).Within size := fun _ h =>
  absurd h List.not_mem_nil

theorem Buffer.Within.store (h : b.Within size) (hi : i < size) (c : Char) :
    (b.store i c).Within size := fun j hj => by
  rcases List.mem_append.mp hj with hj | hj
  · exact h j hj
  · rwa [List.mem_singleton.mp hj]

theorem Buffer.Within.copy (h : b.Within size) (hi : i + cs.length ≤ size) :
    (b.copy i cs).Within size := by
  induction cs generalizing b i with
  | nil => exact h
  | cons c cs ih =>
    rw [List.length_cons] at hi
    exact ih (h.store (by omega) c) (by omega)

theorem holds_nil (b : Buffer) : b.Holds [] := fun _ h => absurd h (Nat.not_lt_zero _)

theorem Buffer.Holds.left (h : b.Holds (text ++ cs)) : b.Holds text := fun i hi => by
  rw [h i (by rw [List.length_append]; omega), List.getElem_append_left hi]

/-- A character behind the text. -/
theorem Buffer.Holds.store (h : b.Holds text) (c : Char) :
    (b.store text.length c).Holds (text ++ [c]) := by
  intro i hi
  rw [List.length_append, List.length_singleton] at hi
  rcases Nat.lt_or_eq_of_le (Nat.lt_succ_iff.mp hi) with hlt | rfl
  · rw [List.getElem_append_left hlt, ← h i hlt]
    exact Function.update_of_ne hlt.ne _ _
  · rw [List.getElem_concat_length rfl]
    exact Function.update_self _ _ _

theorem Buffer.Holds.copy (h : b.Holds text) (cs : List Char) :
    (b.copy text.length cs).Holds (text ++ cs) := by
  induction cs generalizing b text with
  | nil => rwa [List.append_nil]
  | cons c cs ih =>
    have := ih (h.store c)
    rwa [List.length_append, List.length_singleton, List.append_assoc] at this

/-- **The string in a buffer** that holds it, with its zero. -/
theorem Buffer.Holds.string (h : b.Holds (text ++ [nul])) (hnul : nul ∉ text)
    (hsize : text.length < size) : b.string size = some text := by
  have htext : (List.range (text.length + 1)).map b.cells = text ++ [nul] :=
    List.ext_getElem (by simp) fun i hi hi' => by
      rw [List.getElem_map, List.getElem_range]
      exact h i hi'
  have hsplit : (List.range size).map b.cells = text ++ nul ::
      ((List.range (size - (text.length + 1))).map fun i => b.cells (text.length + 1 + i)) := by
    have hsum : size = text.length + 1 + (size - (text.length + 1)) := by omega
    conv_lhs => rw [hsum, List.range_add, List.map_append, htext, List.map_map]
    rw [List.append_assoc]
    rfl
  have hkeep : ∀ c ∈ text, decide (c ≠ nul) = true := fun c hc => by
    simpa using fun heq : c = nul => hnul (heq ▸ hc)
  rw [Buffer.string, hsplit, if_pos (by simp), List.takeWhile_append_of_pos hkeep]
  simp

end LuaAdaLoad.Text.Buffers
