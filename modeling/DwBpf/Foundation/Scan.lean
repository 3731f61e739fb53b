import Mathlib.Algebra.Group.Nat.Defs
import Mathlib.Data.List.Basic
import Mathlib.Order.Lattice

/-! # Reading lines and fields of a text

The part of the C library that a reader of a line-based format needs: `fgets`,
and `sscanf` with the conversions `%x`, `%u`, `%s` and `%[^\n]`. A conversion
that fails ends the scan, so the result of `DwBpf.Scan.scan` is the list of the
values that were assigned. Numbers read as `strtoul` reads them, into 64 bits.
A number that was printed is read back (`DwBpf.Scan.unsigned_of_digits`), and a
text made of short lines is read line by line (`DwBpf.Scan.chunks_of_lines`).
-/

namespace DwBpf

namespace Scan

/-- `isspace`: the space and the characters from `\t` to `\r`. -/
def isBlank (char : Char) : Bool := char = ' ' || (9 ≤ char.toNat && char.toNat ≤ 13)

def skipBlank (input : List Char) : List Char := input.dropWhile isBlank

/-- The value of a digit in a base up to 16. -/
def digit? (base : Nat) (char : Char) : Option Nat :=
  let value :=
    if 48 ≤ char.toNat ∧ char.toNat ≤ 57 then some (char.toNat - 48)
    else if 97 ≤ char.toNat ∧ char.toNat ≤ 102 then some (char.toNat - 87)
    else if 65 ≤ char.toNat ∧ char.toNat ≤ 70 then some (char.toNat - 55)
    else none
  value.filter fun number => decide (number < base)

def isDigit (base : Nat) (char : Char) : Bool := (digit? base char).isSome

/-- The number a sequence of digits stands for. -/
def value (base : Nat) (digits : List Char) : Nat :=
  digits.foldl (fun number char => number * base + (digit? base char).getD 0) 0

/-- An optional sign: whether it is a minus, and what follows. -/
def sign : List Char → Bool × List Char
  | '-' :: rest => (true, rest)
  | '+' :: rest => (false, rest)
  | input => (false, input)

/-- The marker of a hexadecimal number, if there is one, and what follows. -/
def marker (base : Nat) : List Char → Bool × List Char
  | '0' :: 'x' :: rest => if base = 16 then (true, rest) else (false, '0' :: 'x' :: rest)
  | '0' :: 'X' :: rest => if base = 16 then (true, rest) else (false, '0' :: 'X' :: rest)
  | input => (false, input)

/-- `strtoul`: values above 64 bits stay at the largest, and a minus wraps. -/
def unsigned (base : Nat) (input : List Char) : Option (Nat × List Char) :=
  let (negative, input) := sign (skipBlank input)
  let (marked, input) := marker base input
  let digits := input.takeWhile (isDigit base)
  if digits = [] ∧ ¬ marked then none
  else
    let number := value base digits
    let result :=
      if 2 ^ 64 ≤ number then 2 ^ 64 - 1
      else if negative then (2 ^ 64 - number) % 2 ^ 64
      else number
    some (result, input.dropWhile (isDigit base))

/-- One directive of a format. -/
inductive Directive where
  | number (base : Nat)
  | word
  | line
  | literal (char : Char)
  | blank
  deriving DecidableEq

/-- A value that `sscanf` assigned. -/
inductive Value where
  | number (value : Nat)
  | text (chars : List Char)
  deriving DecidableEq

/-- `sscanf`: the values assigned until a directive fails. -/
def scan : List Directive → List Char → List Value
  | [], _ => []
  | .number base :: format, input =>
      match unsigned base input with
      | some (number, rest) => .number number :: scan format rest
      | none => []
  | .word :: format, input =>
      let input := skipBlank input
      match input.takeWhile fun char => !isBlank char with
      | [] => []
      | word => .text word :: scan format (input.dropWhile fun char => !isBlank char)
  | .line :: format, input =>
      match input.takeWhile fun char => char ≠ '\n' with
      | [] => []
      | line => .text line :: scan format (input.dropWhile fun char => char ≠ '\n')
  | .literal char :: format, input =>
      match input with
      | [] => []
      | first :: rest => if first = char then scan format rest else []
  | .blank :: format, input => scan format (skipBlank input)

/-- The results of repeated `fgets` with a buffer of `size` bytes: each ends with
a newline, or with the buffer, or with the text. -/
def chunks (size : Nat) : List Char → List Char → List (List Char)
  | [], [] => []
  | [], begun => [begun]
  | char :: text, begun =>
      if char = '\n' ∨ begun.length + 2 = size then (begun ++ [char]) :: chunks size text []
      else chunks size text (begun ++ [char])

/-- Digits are above the blanks and the signs. -/
theorem le_of_isDigit {base : Nat} {char : Char} (digit : isDigit base char = true) :
    48 ≤ char.toNat := by
  unfold isDigit digit? at digit
  by_contra low
  have below : char.toNat < 48 := by omega
  simp [show ¬ 48 ≤ char.toNat by omega, show ¬ 97 ≤ char.toNat by omega,
    show ¬ 65 ≤ char.toNat by omega] at digit

theorem isBlank_of_isDigit {base : Nat} {char : Char} (digit : isDigit base char = true) :
    isBlank char = false := by
  have above := le_of_isDigit digit
  have notSpace : char ≠ ' ' := by
    rintro rfl
    simp at above
  simp [isBlank, notSpace]
  omega

theorem sign_of_isDigit {base : Nat} {char : Char} (digit : isDigit base char = true)
    (rest : List Char) : sign (char :: rest) = (false, char :: rest) := by
  have above := le_of_isDigit digit
  unfold sign
  split
  · rename_i same
    obtain ⟨rfl, -⟩ := List.cons.inj same
    simp at above
  · rename_i same
    obtain ⟨rfl, -⟩ := List.cons.inj same
    simp at above
  · rfl

theorem marker_of_head (base : Nat) {char : Char} {rest : List Char}
    (unmarked : ∀ next ∈ rest.head?, next ≠ 'x' ∧ next ≠ 'X') :
    marker base (char :: rest) = (false, char :: rest) := by
  unfold marker
  split
  · rename_i same
    obtain ⟨-, rfl⟩ := List.cons.inj same
    exact absurd rfl (unmarked 'x' rfl).1
  · rename_i same
    obtain ⟨-, rfl⟩ := List.cons.inj same
    exact absurd rfl (unmarked 'X' rfl).2
  · rfl

theorem ne_of_isDigit {base : Nat} {char : Char} (digit : isDigit base char = true) :
    char ≠ 'x' ∧ char ≠ 'X' := by
  constructor
  · rintro rfl
    simp [isDigit, digit?] at digit
  · rintro rfl
    simp [isDigit, digit?] at digit

theorem takeWhile_append_of_head {property : Char → Bool} {front rest : List Char}
    (all : ∀ char ∈ front, property char = true)
    (ends : ∀ char ∈ rest.head?, property char = false) :
    (front ++ rest).takeWhile property = front ∧ (front ++ rest).dropWhile property = rest := by
  rw [List.takeWhile_append_of_pos all, List.dropWhile_append_of_pos all]
  cases rest with
  | nil => simp
  | cons char rest => simp [ends char rfl]

/-- A number is read back up to the first character that is not of it. -/
theorem unsigned_of_digits {base : Nat} {digits rest : List Char} (nonempty : digits ≠ [])
    (all : ∀ char ∈ digits, isDigit base char = true)
    (ends : ∀ char ∈ rest.head?, isDigit base char = false ∧ char ≠ 'x' ∧ char ≠ 'X')
    (small : value base digits < 2 ^ 64) :
    unsigned base (digits ++ rest) = some (value base digits, rest) := by
  obtain ⟨first, others, rfl⟩ := List.exists_cons_of_ne_nil nonempty
  have digit := all first (by simp)
  have unskipped : skipBlank (first :: others ++ rest) = first :: (others ++ rest) := by
    simp [skipBlank, isBlank_of_isDigit digit]
  have unmarked : ∀ next ∈ (others ++ rest).head?, next ≠ 'x' ∧ next ≠ 'X' := by
    cases others with
    | nil => exact fun next member => (ends next member).2
    | cons second others =>
        rintro next ⟨⟩
        exact ne_of_isDigit (all second (by simp))
  obtain ⟨taken, dropped⟩ := takeWhile_append_of_head all fun char member => (ends char member).1
  rw [List.cons_append] at taken dropped
  simp only [unsigned, unskipped, sign_of_isDigit digit, marker_of_head base unmarked, taken,
    dropped, reduceCtorEq, false_and, ↓reduceIte, Bool.false_eq_true, Nat.not_le.mpr small]

/-- A line that fits into the buffer comes in one piece. -/
theorem chunks_body {size : Nat} {body begun text : List Char} (plain : '\n' ∉ body)
    (short : begun.length + body.length + 1 < size) :
    chunks size (body ++ '\n' :: text) begun =
      (begun ++ body ++ ['\n']) :: chunks size text [] := by
  induction body generalizing begun with
  | nil =>
      rw [List.nil_append, chunks, if_pos (.inl rfl), List.append_nil]
  | cons char body ih =>
      have other : char ≠ '\n' := fun same => plain (by simp [same])
      have room : begun.length + 2 ≠ size := by
        rw [List.length_cons] at short
        omega
      rw [List.cons_append, chunks, if_neg (by simp [other, room]),
        ih (fun member => plain (List.mem_cons_of_mem _ member)) (by simp at short ⊢; omega)]
      simp

/-- Short lines are read one by one. -/
theorem chunks_of_lines {size : Nat} {lines : List (List Char)}
    (each : ∀ line ∈ lines, ∃ body, line = body ++ ['\n'] ∧ '\n' ∉ body ∧ line.length < size) :
    chunks size lines.flatten [] = lines := by
  induction lines with
  | nil => rfl
  | cons line lines ih =>
      obtain ⟨body, rfl, plain, short⟩ := each line (by simp)
      rw [List.length_append, List.length_singleton] at short
      rw [List.flatten_cons, List.append_assoc, List.singleton_append,
        chunks_body plain (by rw [List.length_nil]; omega), List.nil_append,
        ih fun other member => each other (by simp [member])]

end Scan

end DwBpf
