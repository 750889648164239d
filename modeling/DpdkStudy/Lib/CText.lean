import Mathlib.Tactic.Common
import Mathlib.Algebra.Group.Nat.Defs

/-!
# Numbers in C text

What `strtoul`, the conversions of `sscanf` and `fgets` make of a text. A
number is read the way the C library reads it: leading white space is
skipped, a sign is accepted also where an unsigned number is expected, the
digits end at the first character that is none, a number past the range of
`unsigned long` becomes its largest value, and a minus sign negates modulo
the range.

A scanner (`Scan`) consumes text from the front and fails where `sscanf`
would stop converting.
-/

namespace CText

/-- `isspace`. -/
def isSpace (c : Char) : Bool := c.toNat == 32 || (9 ≤ c.toNat && c.toNat ≤ 13)

/-- The value of a digit in a base. -/
def digitVal (base : ℕ) (c : Char) : Option ℕ :=
  let v :=
    if '0' ≤ c ∧ c ≤ '9' then c.toNat - '0'.toNat
    else if 'a' ≤ c ∧ c ≤ 'z' then c.toNat - 'a'.toNat + 10
    else if 'A' ≤ c ∧ c ≤ 'Z' then c.toNat - 'A'.toNat + 10
    else base
  if v < base then some v else none

/-- The digits at the front of a text, after digits worth `acc`. -/
def scanDigits (base : ℕ) : ℕ → List Char → ℕ × List Char
  | acc, [] => (acc, [])
  | acc, c :: cs =>
    match digitVal base c with
    | some d => scanDigits base (acc * base + d) cs
    | none => (acc, c :: cs)

/-- The number at the front of a text: at least one digit. -/
def scanNumber (base : ℕ) : List Char → Option (ℕ × List Char)
  | [] => none
  | c :: cs => (digitVal base c).map (fun d => scanDigits base d cs)

/-- The sign at the front of a text, and the text past it. -/
def scanSign : List Char → Bool × List Char
  | '-' :: cs => (true, cs)
  | '+' :: cs => (false, cs)
  | cs => (false, cs)

/-- The text past a mark `0x`, which counts as one only before a
hexadecimal digit. -/
def skipHexMark : List Char → List Char
  | '0' :: x :: c :: cs =>
    if (x = 'x' ∨ x = 'X') ∧ (digitVal 16 c).isSome then c :: cs else '0' :: x :: c :: cs
  | cs => cs

/-- The `unsigned long` a number stands for. -/
def toULong (negative : Bool) (n : ℕ) : UInt64 :=
  if n < 2 ^ 64 then (if negative then -UInt64.ofNat n else UInt64.ofNat n)
  else UInt64.ofNat (2 ^ 64 - 1)

/-- **An unsigned number at the front of a text**, with the text past it. -/
def scanUnsigned (base : ℕ) (s : List Char) : Option (UInt64 × List Char) :=
  let (negative, s) := scanSign (s.dropWhile isSpace)
  let s := if base = 16 then skipHexMark s else s
  (scanNumber base s).map (fun (n, rest) => (toULong negative n, rest))

/-- `strtoul`: zero where there is no number. -/
def strtoul (base : ℕ) (s : String) : UInt64 :=
  match scanUnsigned base s.toList with
  | some (n, _) => n
  | none => 0

/-! ## Scanners -/

/-- A scanner of text. -/
abbrev Scan := StateT (List Char) Option

/-- `%lu`, and `%u` and `%hhu` before they are cut to their width. -/
def scanULong : Scan UInt64 := fun s => scanUnsigned 10 s

/-- A character of the format that is matched as it stands. -/
def scanChar (c : Char) : Scan Unit
  | [] => none
  | x :: cs => if x = c then some ((), cs) else none

/-- `%n[^c]`: at least one and at most `n` characters other than `c`. -/
def scanNot (n : ℕ) (c : Char) : Scan (List Char) := fun s =>
  let field := (s.take n).takeWhile (· ≠ c)
  if field = [] then none else some (field, s.drop field.length)

/-! ## Lines -/

/-- What `fgets` reads from a file into a buffer of `size` characters, call
after call: up to the end of a line or until the buffer is full. Here `line`
is read already and the buffer has `room` left. -/
def fgetsFrom (size : ℕ) : ℕ → List Char → List Char → List (List Char)
  | _, line, [] => if line = [] then [] else [line]
  | room, line, c :: cs =>
    if c = '\n' ∨ room ≤ 1 then (line ++ [c]) :: fgetsFrom size (size - 1) [] cs
    else fgetsFrom size (room - 1) (line ++ [c]) cs

/-- The lines of a file, in pieces that fit a buffer of `size` characters. -/
def fgetsAll (size : ℕ) (text : List Char) : List (List Char) :=
  fgetsFrom size (size - 1) [] text

/-- The lines of a text, each with the newline that ends it. Here `line` is read
already. -/
def linesFrom : List Char → List Char → List (List Char)
  | line, [] => if line = [] then [] else [line]
  | line, c :: cs =>
    if c = '\n' then (line ++ [c]) :: linesFrom [] cs else linesFrom (line ++ [c]) cs

/-- **The lines of a file.** -/
def fileLines (text : List Char) : List (List Char) := linesFrom [] text

/-- A line that has begun is one of the lines, with what has been read of it. -/
theorem exists_mem_linesFrom {line : List Char} (h : line ≠ []) (cs : List Char) :
    ∃ l ∈ linesFrom line cs, line.length ≤ l.length := by
  induction cs generalizing line with
  | nil => exact ⟨line, by simp [linesFrom, h], Nat.le_refl _⟩
  | cons c cs ih =>
    rw [linesFrom]
    split
    · exact ⟨line ++ [c], List.mem_cons_self, by simp⟩
    · obtain ⟨l, hl, hle⟩ := @ih (line ++ [c]) (by simp)
      rw [List.length_append] at hle
      exact ⟨l, hl, Nat.le_trans (Nat.le_add_right _ _) hle⟩

/-- Lines that fit the buffer are read one by one. -/
theorem fgetsFrom_eq_linesFrom {size room : ℕ} {line cs : List Char} (hroom : 0 < room)
    (hsize : line.length + room = size - 1)
    (hfit : ∀ l ∈ linesFrom line cs, l.length ≤ size - 1) :
    fgetsFrom size room line cs = linesFrom line cs := by
  induction cs generalizing line room with
  | nil => rfl
  | cons c cs ih =>
    rw [linesFrom] at hfit
    rw [fgetsFrom, linesFrom]
    by_cases hc : c = '\n'
    · rw [if_pos hc] at hfit
      rw [if_pos (Or.inl hc), if_pos hc]
      have hpos : 0 < size - 1 := by omega
      rw [ih hpos (by simp) fun l hl => hfit l (List.mem_cons_of_mem _ hl)]
    · rw [if_neg hc] at hfit ⊢
      by_cases hlast : room ≤ 1
      · -- The buffer is full, so the line ends here.
        obtain rfl : cs = [] := by
          by_contra hne
          obtain ⟨d, ds, rfl⟩ := List.exists_cons_of_ne_nil hne
          have hlong : ∃ l ∈ linesFrom (line ++ [c]) (d :: ds), line.length + 2 ≤ l.length := by
            rw [linesFrom]
            split
            · exact ⟨_, List.mem_cons_self, by simp⟩
            · obtain ⟨l, hl, hle⟩ :=
                @exists_mem_linesFrom (line ++ [c] ++ [d]) (by simp) ds
              exact ⟨l, hl, by simpa using hle⟩
          obtain ⟨l, hl, hle⟩ := hlong
          have := hfit l hl
          omega
        rw [if_pos (Or.inr hlast)]
        simp [fgetsFrom, linesFrom]
      · rw [if_neg (by simp [hc, hlast])]
        exact ih (by omega) (by simp; omega) hfit

/-- Lines that fit the buffer are read one by one. -/
theorem fgetsAll_eq_fileLines {size : ℕ} (hsize : 1 < size) {text : List Char}
    (hfit : ∀ l ∈ fileLines text, l.length ≤ size - 1) : fgetsAll size text = fileLines text :=
  fgetsFrom_eq_linesFrom (Nat.sub_pos_of_lt hsize) (Nat.zero_add _) hfit

/-- The string a buffer holds: up to the first null character. -/
def cString (buffer : List Char) : List Char := buffer.takeWhile (fun c => c.toNat ≠ 0)

end CText
