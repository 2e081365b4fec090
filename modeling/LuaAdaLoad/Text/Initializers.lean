import Mathlib.Tactic

/-!
# Array initializers of C

A program that writes `0x61, 0x62, ` writes the elements of a character array. `printed` is what
`printf ("0x%.2x, ", ch)` makes of a byte, for signed and for unsigned characters; `elements` reads
an initializer list as a compiler does, and finds the bytes again (`elements_printed`).
-/

namespace LuaAdaLoad.Text.Initializers

/-- A byte. -/
abbrev Byte := Fin 256

/-- Numerals are bytes. -/
instance byte_neZero : NeZero 256 := ⟨by decide⟩

/-- What `%x` prints of a `char`: as an `unsigned int`, after a sign extension where characters are
signed. -/
def promoted (signed : Bool) (b : Byte) : ℕ :=
  if signed && decide (128 ≤ b.val) then 2 ^ 32 - 256 + b.val else b.val

/-- `%.2x`. -/
def hexImage (v : ℕ) : List Char :=
  let digits := Nat.toDigits 16 v
  List.replicate (2 - digits.length) '0' ++ digits

/-- `0x%.2x`. -/
def constant (signed : Bool) (b : Byte) : List Char := '0' :: 'x' :: hexImage (promoted signed b)

/-- `0x%.2x, `. -/
def printed (signed : Bool) (b : Byte) : List Char := constant signed b ++ [',', ' ']

/-! ### Reading -/

def isSpace (c : Char) : Bool := c = ' ' || c = '\n'

/-- The value of a hexadecimal digit. -/
def digitValue (c : Char) : ℕ :=
  if c.isDigit then c.toNat - '0'.toNat else c.toNat - 'a'.toNat + 10

/-- The value of hexadecimal digits. -/
def hexValue (digits : List Char) : ℕ := digits.foldl (fun v c => 16 * v + digitValue c) 0

/-- The byte that a constant between two commas gives a `char`, whether signed or not. -/
def element (piece : List Char) : Option Byte :=
  match piece.dropWhile isSpace with
  | '0' :: 'x' :: digits => some (Fin.ofNat 256 (hexValue digits))
  | _ => none

/-- The bytes of an initializer list. -/
def elements (text : List Char) : List Byte := (text.splitOn ',').filterMap element

/-- The bytes of a C string: those before the first zero. -/
def stringOf (bytes : List Byte) : List Byte := bytes.takeWhile fun b => b ≠ 0

/-! ### What is printed is read again -/

/-- All that reading needs to know of a constant. -/
def Readable (b : Byte) (text : List Char) : Prop :=
  element text = some b ∧ ',' ∉ text ∧ '}' ∉ text

theorem readable_constant (signed : Bool) (b : Byte) : Readable b (constant signed b) := by
  revert signed b
  unfold Readable
  decide +kernel

theorem element_space {ws text : List Char} (hws : ∀ c ∈ ws, isSpace c) :
    element (ws ++ text) = element text := by
  unfold element
  rw [List.dropWhile_append_of_pos hws]

/-- White space before an initializer list is skipped. -/
theorem elements_printed {signed : Bool} {b : Byte} {ws rest : List Char}
    (hws : ∀ c ∈ ws, isSpace c) :
    elements (ws ++ (printed signed b ++ rest)) = b :: elements (' ' :: rest) := by
  obtain ⟨hread, hcomma, -⟩ := readable_constant signed b
  have hsplit : ws ++ (printed signed b ++ rest) =
      (ws ++ constant signed b) ++ ',' :: ' ' :: rest := by
    simp [printed]
  have hno : ',' ∉ ws ++ constant signed b := fun hmem => by
    rcases List.mem_append.mp hmem with hmem | hmem
    · exact absurd (hws _ hmem) (by decide)
    · exact hcomma hmem
  rw [hsplit, elements, List.splitOn_append_cons_self, List.splitOn_eq_singleton hno]
  simp only [List.singleton_append, List.filterMap_cons, element_space hws, hread]
  rfl

end LuaAdaLoad.Text.Initializers
