import DwBpf.Foundation.Scan

/-! # Printing fields that can be read back

Numbers as `%x`, `%u` and their variants with leading zeros print them. Each is
read back by the conversion of its base (`DwBpf.Scan.unsigned_printed`), and the
directives of a format take their part of a line that was printed to match them.
-/

namespace DwBpf

namespace Scan

/-- A number in a base, with zeros in front up to a width. -/
def printed (base width number : Nat) : List Char := (Nat.toDigits base number).leftpad width '0'

variable {base width number : Nat}

theorem digit?_digitChar {digit : Nat} (small : base ≤ 16) (below : digit < base) :
    digit? base digit.digitChar = some digit := by
  have known : ∀ digit < 16, digit? 16 digit.digitChar = some digit := by decide
  have narrowed : digit? base digit.digitChar =
      (digit? 16 digit.digitChar).filter fun number => decide (number < base) := by
    unfold digit?
    dsimp only
    rw [Option.filter_filter]
    congr 1
    funext number
    by_cases inside : number < base
    · simp [inside, show number < 16 by omega]
    · simp [inside]
  rw [narrowed, known digit (by omega), Option.filter_some, if_pos (by simpa using below)]

theorem value_append_singleton (digits : List Char) (char : Char) :
    value base (digits ++ [char]) = value base digits * base + (digit? base char).getD 0 := by
  rw [value, List.foldl_append]
  rfl

/-- The digits of a number have its value. -/
theorem value_toDigits (large : 1 < base) (small : base ≤ 16) (number : Nat) :
    value base (Nat.toDigits base number) = number := by
  induction number using Nat.strongRecOn with
  | ind number ih =>
      by_cases below : number < base
      · rw [Nat.toDigits_of_lt_base below]
        simp [value, digit?_digitChar small below]
      · rw [Nat.toDigits_of_base_le large (by omega), value_append_singleton,
          ih _ (Nat.div_lt_self (by omega) large),
          digit?_digitChar small (Nat.mod_lt _ (by omega)), Option.getD_some]
        exact Nat.div_add_mod' number base

theorem isDigit_of_mem_toDigits (large : 1 < base) (small : base ≤ 16) {char : Char}
    (member : char ∈ Nat.toDigits base number) : isDigit base char = true := by
  induction number using Nat.strongRecOn with
  | ind number ih =>
      by_cases below : number < base
      · rw [Nat.toDigits_of_lt_base below, List.mem_singleton] at member
        rw [member, isDigit, digit?_digitChar small below]
        rfl
      · rw [Nat.toDigits_of_base_le large (by omega)] at member
        rcases List.mem_append.mp member with high | low
        · exact ih _ (Nat.div_lt_self (by omega) large) high
        · rw [List.mem_singleton.mp low, isDigit,
            digit?_digitChar small (Nat.mod_lt _ (by omega))]
          rfl

theorem value_zeros_append (large : 0 < base) (zeros : Nat) (digits : List Char) :
    value base (List.replicate zeros '0' ++ digits) = value base digits := by
  have zero : digit? base '0' = some 0 := by simp [digit?, large]
  induction zeros with
  | zero => rfl
  | succ zeros ih =>
      rw [← ih, List.replicate_succ, List.cons_append, value, List.foldl_cons, zero, Nat.zero_mul]
      rfl

theorem printed_ne_nil : printed base width number ≠ [] := by
  rw [printed, List.leftpad]
  simp [Nat.toDigits_ne_nil]

theorem isDigit_of_mem_printed (large : 1 < base) (small : base ≤ 16) {char : Char}
    (member : char ∈ printed base width number) : isDigit base char = true := by
  rcases List.mem_append.mp member with zero | digit
  · rw [(List.mem_replicate.mp zero).2]
    simp [isDigit, digit?, show 0 < base by omega]
  · exact isDigit_of_mem_toDigits large small digit

theorem value_printed (large : 1 < base) (small : base ≤ 16) (width number : Nat) :
    value base (printed base width number) = number := by
  rw [printed, List.leftpad, value_zeros_append (by omega), value_toDigits large small]

/-- A printed number is read back. -/
theorem unsigned_printed (large : 1 < base) (small : base ≤ 16) (fits : number < 2 ^ 64)
    {rest : List Char}
    (ends : ∀ char ∈ rest.head?, isDigit base char = false ∧ char ≠ 'x' ∧ char ≠ 'X') :
    unsigned base (printed base width number ++ rest) = some (number, rest) := by
  have read := value_printed large small width number
  rw [unsigned_of_digits printed_ne_nil (fun _ => isDigit_of_mem_printed large small) ends
    (by rw [read]; exact fits), read]

variable {format : List Directive} {rest : List Char}

theorem head?_printed_append (rest : List Char) :
    (printed base width number ++ rest).head? = (printed base width number).head? := by
  rw [List.head?_append, Option.or_of_isSome]
  exact List.isSome_head?.mpr printed_ne_nil

theorem scan_number (large : 1 < base) (small : base ≤ 16) (fits : number < 2 ^ 64)
    (ends : ∀ char ∈ rest.head?, isDigit base char = false ∧ char ≠ 'x' ∧ char ≠ 'X') :
    scan (.number base :: format) (printed base width number ++ rest) =
      .number number :: scan format rest := by
  rw [scan, unsigned_printed large small fits ends]

theorem scan_literal (char : Char) :
    scan (.literal char :: format) (char :: rest) = scan format rest := by
  rw [scan, if_pos rfl]

theorem scan_blank_of_head (shown : ∀ char ∈ rest.head?, isBlank char = false) :
    scan (.blank :: format) rest = scan format rest := by
  rw [scan, skipBlank]
  cases rest with
  | nil => rfl
  | cons char rest => rw [List.dropWhile_cons_of_neg (by simp [shown char rfl])]

theorem scan_blank_cons : scan (.blank :: format) (' ' :: rest) = scan (.blank :: format) rest := by
  rw [scan, scan, skipBlank, List.dropWhile_cons_of_pos (by decide)]
  rfl

/-- A number after blanks. -/
theorem scan_blank_number (large : 1 < base) (small : base ≤ 16) (fits : number < 2 ^ 64)
    (ends : ∀ char ∈ rest.head?, isDigit base char = false ∧ char ≠ 'x' ∧ char ≠ 'X') :
    scan (.blank :: .number base :: format) (' ' :: (printed base width number ++ rest)) =
      .number number :: scan format rest := by
  rw [scan_blank_cons, scan_blank_of_head, scan_number large small fits ends]
  intro char first
  rw [head?_printed_append] at first
  exact isBlank_of_isDigit (isDigit_of_mem_printed large small (List.mem_of_mem_head? first))

/-- A word after blanks. -/
theorem scan_blank_word {word : List Char} (nonempty : word ≠ [])
    (shown : ∀ char ∈ word, isBlank char = false)
    (ends : ∀ char ∈ rest.head?, isBlank char = true) :
    scan (.blank :: .word :: format) (' ' :: (word ++ rest)) = .text word :: scan format rest := by
  obtain ⟨first, others, rfl⟩ := List.exists_cons_of_ne_nil nonempty
  have unskipped : skipBlank (first :: others ++ rest) = first :: others ++ rest := by
    simp [skipBlank, shown first (by simp)]
  have all : ∀ char ∈ first :: others, (!isBlank char) = true := by
    intro char member
    rw [shown char member, Bool.not_false]
  have stops : ∀ char ∈ rest.head?, (!isBlank char) = false := by
    intro char member
    rw [ends char member, Bool.not_true]
  obtain ⟨taken, dropped⟩ := takeWhile_append_of_head all stops
  rw [scan_blank_cons, scan_blank_of_head, scan, unskipped, taken, dropped]
  rintro char ⟨⟩
  exact shown first (by simp)

/-- What is left of a line after blanks. -/
theorem scan_blank_line {line : List Char} (nonempty : line ≠ [])
    (shown : ∀ char ∈ line.head?, isBlank char = false) (plain : ∀ char ∈ line, char ≠ '\n')
    (ends : ∀ char ∈ rest.head?, char = '\n') (pad : Nat) :
    scan (.blank :: .line :: format) (List.replicate pad ' ' ++ (line ++ rest)) =
      .text line :: scan format rest := by
  obtain ⟨first, others, rfl⟩ := List.exists_cons_of_ne_nil nonempty
  induction pad with
  | zero =>
      have all : ∀ char ∈ first :: others, decide (char ≠ '\n') = true :=
        fun char member => decide_eq_true (plain char member)
      have stops : ∀ char ∈ rest.head?, decide (char ≠ '\n') = false :=
        fun char member => decide_eq_false (not_not_intro (ends char member))
      obtain ⟨taken, dropped⟩ := takeWhile_append_of_head all stops
      rw [List.replicate_zero, List.nil_append, scan_blank_of_head, scan, taken, dropped]
      rintro char ⟨⟩
      exact shown first rfl
  | succ pad ih => rw [List.replicate_succ, List.cons_append, scan_blank_cons, ih]

/-- Nothing is left of a line but blanks. -/
theorem scan_blank_end (pad : Nat) :
    scan (.blank :: .line :: format) (List.replicate pad ' ' ++ ['\n']) = [] := by
  induction pad with
  | zero => rfl
  | succ pad ih => rw [List.replicate_succ, List.cons_append, scan_blank_cons, ih]

end Scan

end DwBpf
