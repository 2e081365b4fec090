import LuaAdaLoad.Text.Initializers

/-!
# The program mk-ctxt

The build embeds one-line configuration files into programs: `mk-ctxt` reads a file in pieces of up
to 1024 bytes and prints it as a character array. It means to leave out the newline at the end. It
looks for it from the end of a piece down to, and without, the first byte of the piece, and it does
not look at all where a piece is full; so the newline is left out just if it comes in a piece that
is not full and holds another byte (`embedded_iff`).
-/

namespace LuaAdaLoad.Build.MkCtxt

open LuaAdaLoad.Text.Initializers

/-- `sizeof (buf)`. -/
def bufSize : ℕ := 1024

/-- The newline. -/
def newline : Byte := 10

/-- The variables of `main`: the static buffer, the counters and what has been printed. -/
structure State where
  buf : ℕ → Byte
  bytes : ℕ
  line : ℕ
  out : List Char

/-- `for (i = r; i > 0; --i)`. -/
def clearNewline (buf : ℕ → Byte) : ℕ → (ℕ → Byte)
  | 0 => buf
  | i + 1 =>
    if buf (i + 1) = newline then Function.update buf (i + 1) 0 else clearNewline buf i

/-- What `read` leaves in the buffer. -/
def filled (buf : ℕ → Byte) (piece : List Byte) : ℕ → Byte := fun i => piece.getD i (buf i)

/-- The printing of one byte. -/
def printByte (signed : Bool) (s : State) (b : Byte) : State :=
  let line := s.line + 6
  { s with
    bytes := s.bytes + 1
    line := if 72 ≤ line then 0 else line
    out := s.out ++ printed signed b ++ if 72 ≤ line then ['\n'] else [] }

/-- `while (num != r)`: the bytes that are left to print. -/
def printFrom (signed : Bool) (num : ℕ) : ℕ → State → State
  | 0, s => s
  | left + 1, s => printFrom signed (num + 1) left (printByte signed s (s.buf num))

/-- `while (!done)`, for what `read` gives: `none` is a return of -1, an empty piece the end. The
result is the return value, if the function returns. -/
def readAll (signed : Bool) : List (Option (List Byte)) → State → State × Option ℕ
  | [], s => (s, none)
  | none :: _, s => (s, some 112)
  | some piece :: reads, s =>
    let r := piece.length
    let buf := filled s.buf piece
    let buf := if r ≠ bufSize then clearNewline buf r else buf
    let s := printFrom signed 0 r { s with buf := buf }
    if r = 0 then (s, none) else readAll signed reads s

/-- `char NAME[] = {` and the end of the line. -/
def header (name : List Char) : List Char := "char ".toList ++ name ++ "[] = \x7b\n".toList

/-- `; const unsigned int NAME_len = BYTES;`, behind the closing brace. The count is an
`unsigned long` that is printed with `%u`. -/
def lengthLine (name : List Char) (bytes : ℕ) : List Char :=
  ";\nconst unsigned int ".toList ++ name ++ "_len = ".toList ++
    Nat.toDigits 10 (bytes % 2 ^ 32) ++ ";\n".toList

/-- The last lines. -/
def footer (name : List Char) (bytes : ℕ) : List Char :=
  "0x00,\n".toList ++ '}' :: lengthLine name bytes

/-- The start of `main`; the buffer is static, so that it holds zeros. -/
def initial (name : List Char) : State := ⟨fun _ => 0, 0, 0, header name⟩

/-- `main`: what is printed and the exit status. -/
def main (signed flushed : Bool) (args : List (List Char)) (reads : List (Option (List Byte))) :
    List Char × ℕ :=
  match args with
  | [name] =>
    match readAll signed reads (initial name) with
    | (s, some status) => (s.out, status)
    | (s, none) => (s.out ++ footer name s.bytes, if flushed then 0 else 111)
  | _ => ([], 100)

/-- The bytes of the array in what is printed. -/
def arrayOf (name text : List Char) : List Byte :=
  elements ((text.drop (header name).length).takeWhile fun c => c ≠ '}')

/-! ### Clearing the newline -/

theorem clearNewline_of_no {buf : ℕ → Byte} {r : ℕ} (h : ∀ i ≤ r, buf i ≠ newline) :
    clearNewline buf r = buf := by
  induction r with
  | zero => rfl
  | succ r ih =>
    rw [clearNewline, if_neg (h _ (le_refl _))]
    exact ih fun i hi => h i (by omega)

theorem clearNewline_of_last {buf : ℕ → Byte} {r : ℕ} (hr : 0 < r) (hlast : buf r = newline) :
    clearNewline buf r = Function.update buf r 0 := by
  obtain ⟨i, rfl⟩ := Nat.exists_eq_add_of_lt hr
  rw [zero_add, clearNewline, if_pos (by simpa using hlast)]

theorem clearNewline_skip {buf : ℕ → Byte} {r : ℕ} (h : buf (r + 1) ≠ newline) :
    clearNewline buf (r + 1) = clearNewline buf r := by
  rw [clearNewline, if_neg h]

/-! ### Printing -/

/-- A text that is read as some bytes before the rest of an initializer list. -/
def ReadsAs (text : List Char) (bytes : List Byte) : Prop :=
  '}' ∉ text ∧ ∃ ws, (∀ c ∈ ws, isSpace c) ∧
    ∀ rest, elements (text ++ rest) = bytes ++ elements (ws ++ rest)

theorem readsAs_nil : ReadsAs [] [] := ⟨by simp, [], by simp, fun _ => rfl⟩

theorem ReadsAs.append_printed {text : List Char} {bytes : List Byte} (h : ReadsAs text bytes)
    (signed : Bool) (b : Byte) {breaks : List Char} (hbreaks : ∀ c ∈ breaks, c = '\n') :
    ReadsAs (text ++ printed signed b ++ breaks) (bytes ++ [b]) := by
  obtain ⟨hbrace, ws, hws, hread⟩ := h
  obtain ⟨-, -, hconstant⟩ := readable_constant signed b
  refine ⟨fun hmem => ?_, ' ' :: breaks, ?_, fun rest => ?_⟩
  · simp only [printed, List.mem_append] at hmem
    rcases hmem with (hmem | hmem | hmem) | hmem
    · exact hbrace hmem
    · exact hconstant hmem
    · exact absurd hmem (by decide)
    · exact absurd (hbreaks _ hmem) (by simp)
  · intro c hc
    rcases List.mem_cons.mp hc with rfl | hc
    · rfl
    · rw [hbreaks c hc]
      rfl
  · rw [List.append_assoc, List.append_assoc, hread, elements_printed hws]
    simp

/-- What has been printed is read as these bytes. -/
def Holds (name : List Char) (s : State) (bytes : List Byte) : Prop :=
  ∃ text, s.out = header name ++ text ∧ ReadsAs text bytes

variable {name : List Char} {signed : Bool} {s : State} {bytes : List Byte}

theorem holds_printByte (h : Holds name s bytes) (b : Byte) :
    Holds name (printByte signed s b) (bytes ++ [b]) := by
  obtain ⟨text, hout, hreads⟩ := h
  have hbreaks : ∀ c ∈ (if 72 ≤ s.line + 6 then ['\n'] else []), c = '\n' := by
    split_ifs <;> simp
  refine ⟨_, ?_, hreads.append_printed signed b hbreaks⟩
  simp only [printByte, hout, List.append_assoc]

theorem holds_printFrom (signed : Bool) (num left : ℕ) (h : Holds name s bytes) :
    Holds name (printFrom signed num left s)
      (bytes ++ (List.range left).map fun i => s.buf (num + i)) ∧
    (printFrom signed num left s).buf = s.buf := by
  induction left generalizing num s bytes with
  | zero => simpa [printFrom] using h
  | succ left ih =>
    obtain ⟨hholds, hbuf⟩ := ih (num + 1) (holds_printByte h (s.buf num))
    refine ⟨?_, hbuf⟩
    have hrange : (List.range (left + 1)).map (fun i => s.buf (num + i)) =
        s.buf num :: (List.range left).map fun i => s.buf (num + 1 + i) := by
      rw [List.range_succ_eq_map, List.map_cons, List.map_map]
      refine congrArg _ (List.map_congr_left fun i _ => ?_)
      exact congrArg s.buf (by simp; omega)
    rw [hrange, List.append_cons]
    exact hholds

/-! ### One piece -/

/-- No newline is left in the buffer. -/
def Plain (buf : ℕ → Byte) : Prop := ∀ i, buf i ≠ newline

theorem filled_lt {buf : ℕ → Byte} {piece : List Byte} {i : ℕ} (hi : i < piece.length) :
    filled buf piece i = piece[i] := by
  simp [filled, hi]

theorem filled_ge {buf : ℕ → Byte} {piece : List Byte} {i : ℕ} (hi : piece.length ≤ i) :
    filled buf piece i = buf i := by
  simp [filled, hi]

theorem range_filled (buf : ℕ → Byte) (piece : List Byte) :
    (List.range piece.length).map (filled buf piece) = piece := by
  refine List.ext_getElem (by simp) fun i hi hi' => ?_
  rw [List.getElem_map, List.getElem_range, filled_lt hi']

theorem plain_filled {buf : ℕ → Byte} {piece : List Byte} (hbuf : Plain buf)
    (hpiece : newline ∉ piece) : Plain (filled buf piece) := by
  intro i h
  rcases Nat.lt_or_ge i piece.length with hi | hi
  · rw [filled_lt hi] at h
    exact hpiece (h ▸ List.getElem_mem hi)
  · rw [filled_ge hi] at h
    exact hbuf i h

/-- A piece without a newline is printed as it is. -/
theorem readAll_plain {piece : List Byte} {reads : List (Option (List Byte))}
    (hholds : Holds name s bytes) (hbuf : Plain s.buf) (hne : piece ≠ [])
    (hpiece : newline ∉ piece) :
    ∃ t, readAll signed (some piece :: reads) s = readAll signed reads t ∧
      Holds name t (bytes ++ piece) ∧ Plain t.buf := by
  have hplain := plain_filled hbuf hpiece
  have hclear : (if piece.length ≠ bufSize then
      clearNewline (filled s.buf piece) piece.length else filled s.buf piece) =
        filled s.buf piece := by
    split_ifs
    · exact clearNewline_of_no fun i _ => hplain i
    · rfl
  have hlen : piece.length ≠ 0 := fun h => hne (List.length_eq_zero_iff.mp h)
  have hstart : Holds name { s with buf := filled s.buf piece } bytes := hholds
  obtain ⟨hprinted, hkept⟩ := holds_printFrom signed 0 piece.length hstart
  simp only [Nat.zero_add, range_filled] at hprinted
  refine ⟨_, ?_, hprinted, hkept ▸ hplain⟩
  simp only [readAll, hclear, hlen, if_false]

/-- What the newline is printed as, in a piece of that length. -/
def ending (length : ℕ) : Byte := if 1 < length ∧ length < bufSize then 0 else newline

/-- The buffer when a piece that ends with the newline is about to be printed. -/
theorem range_cleared {buf : ℕ → Byte} {line : List Byte} (hbuf : Plain buf)
    (hfits : line.length + 1 ≤ bufSize) :
    (List.range (line.length + 1)).map (if line.length + 1 ≠ bufSize then
      clearNewline (filled buf (line ++ [newline])) (line.length + 1)
      else filled buf (line ++ [newline])) = line ++ [ending (line.length + 1)] := by
  set piece := line ++ [newline] with hpiece
  have hlen : piece.length = line.length + 1 := by simp [hpiece]
  have hwhole : (List.range (line.length + 1)).map (filled buf piece) = piece :=
    hlen ▸ range_filled buf piece
  have hstale : filled buf piece (line.length + 1) ≠ newline := by
    rw [filled_ge (by omega)]
    exact hbuf _
  unfold ending
  by_cases hfull : line.length + 1 = bufSize
  · rw [if_neg (not_not.mpr hfull), if_neg (by omega), hwhole]
  · rw [if_pos hfull, clearNewline_skip hstale]
    by_cases hshort : line.length = 0
    · rw [hshort] at hwhole
      rw [if_neg (by omega), hshort, clearNewline]
      exact hwhole
    · have hlast : filled buf piece line.length = newline := by
        rw [filled_lt (by omega)]
        simp [hpiece]
      rw [if_pos (by omega), clearNewline_of_last (by omega) hlast, List.range_succ,
        List.map_append, List.map_singleton, Function.update_self]
      refine congrArg (fun l => l ++ [(0 : Byte)]) ?_
      refine List.ext_getElem (by simp) fun i hi hi' => ?_
      rw [List.getElem_map, List.getElem_range, Function.update_of_ne (by omega),
        filled_lt (by omega)]
      simp [hpiece, hi']

/-- A piece that ends with the newline. -/
theorem readAll_last {line : List Byte} (hholds : Holds name s bytes) (hbuf : Plain s.buf)
    (hfits : line.length + 1 ≤ bufSize) :
    ∃ t, readAll signed [some (line ++ [newline])] s = (t, none) ∧
      Holds name t (bytes ++ (line ++ [ending (line.length + 1)])) := by
  have hlen : (line ++ [newline]).length = line.length + 1 := by simp
  set buf := if line.length + 1 ≠ bufSize then
    clearNewline (filled s.buf (line ++ [newline])) (line.length + 1)
    else filled s.buf (line ++ [newline]) with hclear
  have hstart : Holds name { s with buf := buf } bytes := hholds
  obtain ⟨hprinted, -⟩ := holds_printFrom signed 0 (line.length + 1) hstart
  simp only [Nat.zero_add] at hprinted
  rw [hclear, range_cleared hbuf hfits, ← hclear] at hprinted
  refine ⟨_, ?_, hprinted⟩
  simp only [readAll, hlen, ← hclear, Nat.add_one_ne_zero, if_false]

/-! ### The whole input -/

theorem readAll_pieces (signed : Bool) {pieces : List (List Byte)} {line : List Byte}
    (hpieces : ∀ piece ∈ pieces, piece ≠ [] ∧ piece.length ≤ bufSize)
    (hflat : pieces.flatten = line ++ [newline]) (hline : newline ∉ line)
    (hholds : Holds name s bytes) (hbuf : Plain s.buf) :
    ∃ t last, pieces.getLast? = some last ∧
      readAll signed (pieces.map some) s = (t, none) ∧
      Holds name t (bytes ++ (line ++ [ending last.length])) := by
  induction pieces generalizing line s bytes with
  | nil => simp at hflat
  | cons piece pieces ih =>
    obtain ⟨hne, hfits⟩ := hpieces piece List.mem_cons_self
    rcases pieces with _ | ⟨next, pieces⟩
    · have hpiece : piece = line ++ [newline] := by simpa using hflat
      subst hpiece
      obtain ⟨t, hrun, hbytes⟩ := readAll_last hholds hbuf (by simpa using hfits)
      exact ⟨t, _, rfl, hrun, by simpa using hbytes⟩
    · have hnext : (next :: pieces).flatten ≠ [] := by
        have := (hpieces next (by simp)).1
        simp [this]
      obtain ⟨rest, x, hrest⟩ := (List.eq_nil_or_concat _).resolve_left hnext
      rw [List.concat_eq_append] at hrest
      rw [List.flatten_cons, hrest, ← List.append_assoc] at hflat
      obtain ⟨rfl, hx⟩ := List.append_inj' hflat rfl
      obtain rfl : x = newline := by simpa using hx
      simp only [List.mem_append, not_or] at hline
      obtain ⟨t, hrun, hprinted, hplain⟩ := readAll_plain hholds hbuf hne hline.1
      obtain ⟨u, last, hlast, hrun', hbytes⟩ := ih (fun p hp => hpieces p (by simp_all)) hrest
        hline.2 hprinted hplain
      refine ⟨u, last, by rw [List.getLast?_cons_cons, hlast], ?_, by simpa using hbytes⟩
      rw [List.map_cons, hrun, hrun']

theorem elements_zero {ws : List Char} (hws : ∀ c ∈ ws, isSpace c) :
    elements (ws ++ "0x00,\n".toList) = [0] := by
  have hcomma : ',' ∉ ws ++ "0x00".toList := fun hmem => by
    rcases List.mem_append.mp hmem with hmem | hmem
    · exact absurd (hws _ hmem) (by decide)
    · exact absurd hmem (by decide)
  have hsplit : ws ++ "0x00,\n".toList = (ws ++ "0x00".toList) ++ ',' :: ['\n'] := by simp
  rw [hsplit, elements, List.splitOn_append_cons_self, List.splitOn_eq_singleton hcomma,
    List.singleton_append, List.filterMap_cons, element_space hws]
  decide

/-- The array that stands in what is printed. -/
theorem arrayOf_main {reads : List (Option (List Byte))} {flushed : Bool} {t : State}
    (hrun : readAll signed reads (initial name) = (t, none)) (hholds : Holds name t bytes) :
    arrayOf name (main signed flushed [name] reads).1 = bytes ++ [0] := by
  obtain ⟨text, hout, hbrace, ws, hws, hread⟩ := hholds
  have hmain : (main signed flushed [name] reads).1 = t.out ++ footer name t.bytes := by
    simp [main, hrun]
  have hzero : ∀ c ∈ text ++ "0x00,\n".toList, c ≠ '}' := by
    rintro _ hmem rfl
    rcases List.mem_append.mp hmem with hmem | hmem
    · exact hbrace hmem
    · exact absurd hmem (by decide)
  have htext : (header name ++ text ++ ("0x00,\n".toList ++ '}' :: lengthLine name t.bytes)).drop
      (header name).length = (text ++ "0x00,\n".toList) ++ '}' ::
        lengthLine name t.bytes := by
    rw [List.append_assoc, List.drop_left, List.append_assoc]
  rw [hmain, hout, footer, arrayOf, htext,
    List.takeWhile_append_of_pos (by simpa using hzero)]
  rw [List.takeWhile_cons_of_neg (by simp), List.append_nil, hread, elements_zero hws]

/-- **A one-line file is embedded faithfully** if and only if the piece with the newline is not full
and holds another byte. -/
theorem embedded_iff (signed flushed : Bool) (name : List Char) {line : List Byte}
    {pieces : List (List Byte)} (hline : newline ∉ line ∧ 0 ∉ line)
    (hpieces : ∀ piece ∈ pieces, 1 ≤ piece.length ∧ piece.length ≤ 1024)
    (hflat : pieces.flatten = line ++ [newline]) :
    stringOf (arrayOf name (main signed flushed [name] (pieces.map some)).1) = line ↔
      ∃ last, pieces.getLast? = some last ∧ 2 ≤ last.length ∧ last.length ≤ 1023 := by
  have hbounds : ∀ piece ∈ pieces, piece ≠ [] ∧ piece.length ≤ bufSize := fun piece hp =>
    ⟨List.length_pos_iff.mp (hpieces piece hp).1, (hpieces piece hp).2⟩
  have hstart : Holds name (initial name) [] := ⟨[], by simp [initial], readsAs_nil⟩
  have hplain : Plain (initial name).buf := fun i => (by decide : (0 : Byte) ≠ newline)
  obtain ⟨t, last, hlast, hrun, hholds⟩ :=
    readAll_pieces signed hbounds hflat hline.1 hstart hplain
  rw [arrayOf_main hrun hholds, List.nil_append, hlast]
  have hnonzero : ∀ b ∈ line, b ≠ 0 := fun b hb h => hline.2 (h ▸ hb)
  unfold stringOf ending
  rw [List.append_assoc, List.takeWhile_append_of_pos (by simpa using hnonzero)]
  by_cases hgood : 1 < last.length ∧ last.length < bufSize
  · rw [if_pos hgood]
    have hlen : 2 ≤ last.length ∧ last.length ≤ 1023 := by
      simp only [bufSize] at hgood
      omega
    simpa using hlen
  · rw [if_neg hgood]
    have hlen : ¬ (2 ≤ last.length ∧ last.length ≤ 1023) := by
      simp only [bufSize] at hgood
      omega
    simpa [newline] using hlen

theorem embedded_abc : stringOf (arrayOf ['x']
    (main true true [['x']] ([[97, 98], [99, 10]].map some)).1) = [97, 98, 99] :=
  (embedded_iff true true ['x']
    (by decide : newline ∉ [97, 98, 99] ∧ (0 : Byte) ∉ [97, 98, 99])
    (by decide) rfl).mpr ⟨[99, 10], rfl, by decide, by decide⟩

/-- The empty line, which `read` delivers as one byte. -/
theorem empty_line_not_embedded : [[newline]].flatten = [] ++ [newline] ∧
    stringOf (arrayOf ['x'] (main true true [['x']] ([[newline]].map some)).1) ≠ [] := by
  decide +kernel

end LuaAdaLoad.Build.MkCtxt
