import DwBpf.Event.Visit
import DwBpf.Foundation.Print
import Mathlib.Data.List.TakeWhile

/-! # The text of a process's maps

The lines of `/proc/<tgid>/task/<tgid>/maps` as the kernel prints them, and what
`bpf_unwind_ctx_prepare_mmap` reads off them: one event for each executable
mapping, in the order of the lines (`DwBpf.visitLines_of_vmas`).
-/

namespace DwBpf

open Scan

/-- What the kernel prints about a mapping; `pad` counts the blanks that align the
names. -/
structure Mapping where
  start : U64
  stop : U64
  read : Bool
  write : Bool
  exec : Bool
  shared : Bool
  pgoff : U64
  maj : U32
  min : U32
  ino : U64
  pad : Nat
  name : List Char

namespace Mapping

/-- The permissions of a mapping. -/
def perms (mapping : Mapping) : List Char :=
  [if mapping.read then 'r' else '-', if mapping.write then 'w' else '-',
    if mapping.exec then 'x' else '-', if mapping.shared then 's' else 'p']

/-- A line without its newline. -/
def body (mapping : Mapping) : List Char :=
  List.flatten [printed 16 8 mapping.start.toNat, ['-'], printed 16 8 mapping.stop.toNat, [' '],
    mapping.perms, [' '], printed 16 8 mapping.pgoff.toNat, [' '], printed 16 2 mapping.maj.toNat,
    [':'], printed 16 2 mapping.min.toNat, [' '], printed 10 0 mapping.ino.toNat, [' '],
    List.replicate mapping.pad ' ', mapping.name]

def line (mapping : Mapping) : List Char := mapping.body ++ ['\n']

/-- A line up to the blanks before the name. -/
def header (mapping : Mapping) : List Char :=
  List.flatten [printed 16 8 mapping.start.toNat, ['-'], printed 16 8 mapping.stop.toNat, [' '],
    mapping.perms, [' '], printed 16 8 mapping.pgoff.toNat, [' '], printed 16 2 mapping.maj.toNat,
    [':'], printed 16 2 mapping.min.toNat, [' '], printed 10 0 mapping.ino.toNat, [' ']]

theorem body_eq (mapping : Mapping) :
    mapping.body = mapping.header ++ (List.replicate mapping.pad ' ' ++ mapping.name) := by
  simp [body, header]

end Mapping

/-- A mapping of the kernel, whose line fits the buffers it is read into. -/
structure Vma extends Mapping where
  nonempty : start < stop
  plain : ∀ char ∈ name, char ≠ '\n' ∧ char ≠ '\x00'
  flush : ∀ char ∈ name.head?, isBlank char = false
  nameFits : name.length < pathMax
  lineFits : toMapping.line.length < bufsiz

/-- The text of a process with these mappings. -/
def mapsText (vmas : List Vma) : List Char := (vmas.map fun vma => vma.line).flatten

namespace Mapping

variable (mapping : Mapping)

/-- What the fields of a line are scanned as, up to the name. -/
def values : List Value :=
  [.number mapping.start.toNat, .number mapping.stop.toNat, .text mapping.perms,
    .number mapping.pgoff.toNat, .number mapping.maj.toNat, .number mapping.min.toNat,
    .number mapping.ino.toNat]

theorem perms_shown : ∀ char ∈ mapping.perms, isBlank char = false ∧ char ≠ '\x00' := by
  intro char member
  simp only [perms, List.mem_cons, List.not_mem_nil, or_false] at member
  obtain rfl | rfl | rfl | rfl := member
  · cases mapping.read <;> decide
  · cases mapping.write <;> decide
  · cases mapping.exec <;> decide
  · cases mapping.shared <;> decide

/-- The characters that end a number in a line. -/
theorem ends_number {base : Nat} (char : Char) (rest : List Char)
    (ends : isDigit base char = false ∧ char ≠ 'x' ∧ char ≠ 'X') :
    ∀ next ∈ (char :: rest).head?, isDigit base next = false ∧ next ≠ 'x' ∧ next ≠ 'X' := by
  rintro next ⟨⟩
  exact ends

/-- The scan of a line gives back its fields, and goes on with the name. -/
theorem scan_header (rest : List Char) : scan mapsFormat (mapping.header ++ rest) =
    mapping.values ++ scan [.blank, .line, .blank] rest := by
  have wide : ∀ value : U64, value.toNat < 2 ^ 64 := fun value => value.isLt
  have narrow : ∀ value : U32, value.toNat < 2 ^ 64 := fun value =>
    Nat.lt_trans value.isLt (by decide)
  have written : mapping.perms ≠ [] := List.cons_ne_nil _ _
  have shown : ∀ char ∈ mapping.perms, isBlank char = false :=
    fun char member => (mapping.perms_shown char member).1
  have blanks : ∀ rest : List Char, ∀ char ∈ (' ' :: rest).head?, isBlank char = true := by
    rintro rest char ⟨⟩
    rfl
  simp only [header, List.flatten_cons, List.flatten_nil, List.append_nil, List.append_assoc,
    List.cons_append, List.nil_append, mapsFormat]
  rw [scan_number (by decide) (by decide) (wide _) (ends_number _ _ (by decide)), scan_literal,
    scan_number (by decide) (by decide) (wide _) (ends_number _ _ (by decide)),
    scan_blank_word written shown (blanks _),
    scan_blank_number (by decide) (by decide) (wide _) (ends_number _ _ (by decide)),
    scan_blank_number (by decide) (by decide) (narrow _) (ends_number _ _ (by decide)),
    scan_literal, scan_number (by decide) (by decide) (narrow _) (ends_number _ _ (by decide)),
    scan_blank_number (by decide) (by decide) (wide _) (ends_number _ _ (by decide)),
    scan_blank_cons]
  rfl

/-- A line holds no other newline and no terminator. -/
theorem plain_body (plain : ∀ char ∈ mapping.name, char ≠ '\n' ∧ char ≠ '\x00') :
    ∀ char ∈ mapping.body, char ≠ '\n' ∧ char ≠ '\x00' := by
  have digits : ∀ {base width number : Nat}, 1 < base → base ≤ 16 →
      ∀ char ∈ printed base width number, char ≠ '\n' ∧ char ≠ '\x00' := by
    intro base width number large small char member
    have above := le_of_isDigit (isDigit_of_mem_printed large small member)
    constructor
    · rintro rfl
      exact absurd above (by decide)
    · rintro rfl
      exact absurd above (by decide)
  have perms : ∀ char ∈ mapping.perms, char ≠ '\n' ∧ char ≠ '\x00' := by
    intro char member
    refine ⟨?_, (mapping.perms_shown char member).2⟩
    rintro rfl
    cases (mapping.perms_shown _ member).1
  have blanks : ∀ char ∈ List.replicate mapping.pad ' ', char ≠ '\n' ∧ char ≠ '\x00' := by
    intro char member
    rw [(List.mem_replicate.mp member).2]
    decide
  have single : ∀ mark : Char, mark ≠ '\n' ∧ mark ≠ '\x00' →
      ∀ char ∈ [mark], char ≠ '\n' ∧ char ≠ '\x00' := by
    intro mark plain char member
    rwa [List.mem_singleton.mp member]
  simp only [body, List.flatten_cons, List.flatten_nil, List.append_nil, List.forall_mem_append]
  exact ⟨digits (by decide) (by decide), single _ (by decide), digits (by decide) (by decide),
    single _ (by decide), perms, single _ (by decide), digits (by decide) (by decide),
    single _ (by decide), digits (by decide) (by decide), single _ (by decide),
    digits (by decide) (by decide), single _ (by decide), digits (by decide) (by decide),
    single _ (by decide), blanks, plain⟩

end Mapping

namespace Vma

variable (vma : Vma)

/-- The scan of a line gives back its fields. -/
theorem scan_line : scan mapsFormat vma.line =
    vma.values ++ if vma.name = [] then [] else [.text vma.name] := by
  rw [Mapping.line, Mapping.body_eq, List.append_assoc, Mapping.scan_header, List.append_assoc]
  by_cases nameless : vma.name = []
  · rw [if_pos nameless, nameless, List.nil_append, scan_blank_end]
  · have ends : ∀ char ∈ ['\n'].head?, char = '\n' := by
      rintro char ⟨⟩
      rfl
    rw [if_neg nameless, scan_blank_line nameless vma.flush
      (fun char member => (vma.plain char member).1) ends]
    rfl

theorem takeWhile_line : vma.line.takeWhile (· ≠ '\x00') = vma.line := by
  rw [List.takeWhile_eq_self_iff]
  intro char member
  rcases List.mem_append.mp member with inBody | newline
  · exact decide_eq_true (vma.plain_body vma.plain char inBody).2
  · rw [List.mem_singleton.mp newline]
    rfl

/-- The text is read line by line. -/
theorem chunks_mapsText (vmas : List Vma) :
    chunks bufsiz (mapsText vmas) [] = vmas.map fun vma => vma.line := by
  apply chunks_of_lines
  intro line member
  obtain ⟨vma, -, rfl⟩ := List.mem_map.mp member
  exact ⟨vma.body, rfl, fun newline => (vma.plain_body vma.plain _ newline).1 rfl, vma.lineFits⟩

end Vma

/-- What is looked up by an address: a range, where it comes from in its file, and
the name of the file. -/
structure Range where
  start : U64
  stop : U64
  pgoff : U64
  name : List Char
  deriving DecidableEq

/-- The range holds the address. -/
def Range.Covers (range : Range) (ip : U64) : Prop := range.start ≤ ip ∧ ip < range.stop

/-- The two ranges do not overlap. -/
def Range.Disjoint (first second : Range) : Prop :=
  first.stop ≤ second.start ∨ second.stop ≤ first.start

instance : Std.Symm Range.Disjoint := ⟨fun _ _ apart => apart.symm⟩

/-- The range that an event enters. -/
def MmapEvent.range (event : MmapEvent) : Range :=
  ⟨event.start, event.start + event.len, event.pgoff, event.filename⟩

/-- The range of a mapping, under the name the library gives it. -/
def Vma.range (vma : Vma) : Range :=
  ⟨vma.start, vma.stop, vma.pgoff, if vma.name = [] then "//anon".toList else vma.name⟩

/-- The ranges that a text has to offer. -/
def executables (vmas : List Vma) : List Range :=
  (vmas.filter fun vma => vma.exec).map Vma.range

/-- The permissions of a mapping as the bits of its event. -/
def Mapping.protBits (mapping : Mapping) : U32 :=
  (if mapping.read then 1 else 0) ||| (if mapping.write then 2 else 0) |||
    (if mapping.exec then 4 else 0)

/-- The event of a mapping. The number of the inode is read as an `unsigned int`, and
its generation is not in the text. -/
def Vma.event (vma : Vma) (inoGeneration : U64) (tgid tid : Pid) : MmapEvent where
  tgid := tgid
  tid := tid
  start := vma.start
  len := vma.stop - vma.start
  pgoff := vma.pgoff
  maj := vma.maj
  min := vma.min
  ino := (vma.ino.setWidth 32).setWidth 64
  inoGeneration := inoGeneration
  prot := vma.protBits
  flags := if vma.shared then 1 else 2
  filename := if vma.name = [] then "//anon".toList else vma.name

theorem Vma.range_event (vma : Vma) (inoGeneration : U64) (tgid tid : Pid) :
    (vma.event inoGeneration tgid tid).range = vma.range := by
  simp only [Vma.event, MmapEvent.range, Vma.range]
  rw [BitVec.add_comm, BitVec.sub_add_cancel]

variable {vma : Vma} {tgid tid : Pid}

/-- All fields of a line are assigned. -/
theorem Scratch.assign_of_vma (scratch : Scratch) {tail : List Value}
    (named : (textAt (vma.values ++ tail) 7).getD [] = vma.name) :
    scratch.assign (vma.values ++ tail) = .ok (⟨{ scratch.event with
        start := vma.start
        len := vma.stop
        pgoff := vma.pgoff
        maj := vma.maj
        min := vma.min }, storeProt scratch.prot vma.perms⟩, vma.name) := by
  have perms : textAt (vma.values ++ tail) 2 = some vma.perms := rfl
  have fits : ¬ (5 ≤ ((some vma.perms).getD []).length ∨ pathMax ≤ vma.name.length) := by
    rw [not_or, Nat.not_le, Nat.not_le]
    exact ⟨Nat.lt_add_one 4, vma.nameFits⟩
  have read : ∀ {width : Nat} (value : BitVec width),
      BitVec.ofNat width value.toNat = value := by
    intro width value
    rw [BitVec.ofNat_toNat, BitVec.setWidth_eq]
  have start : numberAt (vma.values ++ tail) 0 = some vma.start.toNat := rfl
  have stop : numberAt (vma.values ++ tail) 1 = some vma.stop.toNat := rfl
  have pgoff : numberAt (vma.values ++ tail) 3 = some vma.pgoff.toNat := rfl
  have maj : numberAt (vma.values ++ tail) 4 = some vma.maj.toNat := rfl
  have min : numberAt (vma.values ++ tail) 5 = some vma.min.toNat := rfl
  unfold Scratch.assign
  dsimp only
  rw [named, perms, if_neg fits]
  simp only [start, stop, pgoff, maj, min, Option.map_some, Option.getD_some, read]

/-- The permissions that a line left in the buffer are those of the mapping. -/
theorem Vma.bits_of_perms (vma : Vma) (prot : Fin 5 → Char) :
    protBits (storeProt prot vma.perms) = vma.protBits ∧
      flagBits (storeProt prot vma.perms) = (if vma.shared then 1 else 2) ∧
      (storeProt prot vma.perms 2 = 'x' ↔ vma.exec = true) := by
  have first : storeProt prot vma.perms 0 = if vma.read then 'r' else '-' := rfl
  have second : storeProt prot vma.perms 1 = if vma.write then 'w' else '-' := rfl
  have third : storeProt prot vma.perms 2 = if vma.exec then 'x' else '-' := rfl
  have fourth : storeProt prot vma.perms 3 = if vma.shared then 's' else 'p' := rfl
  rw [DwBpf.protBits, flagBits, first, second, third, fourth, Mapping.protBits]
  refine ⟨?_, ?_, ?_⟩
  · cases vma.read <;> cases vma.write <;> cases vma.exec <;> rfl
  · cases vma.shared <;> rfl
  · cases vma.exec <;> simp

/-- A line is read without a fault, and gives its event if it is executable. -/
theorem Scratch.line_of_vma (scratch : Scratch) (vma : Vma) (tgid tid : Pid) :
    ∃ next, scratch.line vma.line tgid tid = .ok (if vma.exec
        then some (vma.event scratch.event.inoGeneration tgid tid) else none, next) ∧
      next.event.inoGeneration = scratch.event.inoGeneration := by
  have named : (textAt (vma.values ++ if vma.name = [] then [] else [.text vma.name]) 7).getD [] =
      vma.name := by
    by_cases nameless : vma.name = []
    · rw [if_pos nameless, nameless]
      rfl
    · rw [if_neg nameless]
      rfl
  have all : ∀ tail, ¬ (vma.values ++ tail).length < 7 := by
    intro tail
    rw [List.length_append]
    exact Nat.not_lt.mpr (Nat.le_add_right 7 _)
  have ino : ∀ tail, numberAt (vma.values ++ tail) 6 = some vma.ino.toNat := fun _ => rfl
  obtain ⟨prot, flags, executable⟩ := vma.bits_of_perms scratch.prot
  unfold Scratch.line
  rw [vma.takeWhile_line, vma.scan_line]
  simp only [scratch.assign_of_vma named, ok_bind, if_neg (all _), Scratch.complete, ino,
    Option.getD_some, prot, flags, BitVec.ofNat_toNat, pure_eq_ok]
  by_cases exec : vma.exec = true
  · rw [if_neg (not_not_intro (executable.mpr exec)), if_pos exec]
    exact ⟨_, rfl, rfl⟩
  · rw [if_pos (mt executable.mp exec), if_neg exec]
    exact ⟨_, rfl, rfl⟩

/-- The lines of a text give one event for each executable mapping. -/
theorem visitLines_of_vmas (tgid tid : Pid) (created : Bool) (vmas : List Vma)
    (scratch : Scratch) :
    visitLines tgid tid created (vmas.map fun vma => vma.line) scratch =
      (vmas.filter fun vma => vma.exec).map fun vma =>
        .record (vma.event scratch.event.inoGeneration tgid tid) created := by
  induction vmas generalizing scratch with
  | nil => rfl
  | cons vma vmas ih =>
      obtain ⟨next, read, generation⟩ := scratch.line_of_vma vma tgid tid
      rw [List.map_cons, visitLines, read]
      rw [List.filter_cons]
      cases vma.exec with
      | true =>
          rw [if_pos rfl, if_pos rfl, List.map_cons, ← generation, ← ih next]
      | false =>
          rw [if_neg Bool.false_ne_true, if_neg Bool.false_ne_true, ← generation, ← ih next]

/-- The text of `/bin/ls` is not empty. -/
theorem lsText_nonempty : (0x400000 : U64) < 0x48c000 := by decide

theorem lsName_plain : ∀ char ∈ "/bin/ls".toList, char ≠ '\n' ∧ char ≠ '\x00' := by simp

theorem lsName_flush : ∀ char ∈ "/bin/ls".toList.head?, isBlank char = false := by
  rintro char ⟨⟩
  rfl

end DwBpf
