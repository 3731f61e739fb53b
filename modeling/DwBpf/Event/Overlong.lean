import DwBpf.Event.MapsText

/-! # Lines that do not fit

`sscanf` is given no widths for the buffers of the permissions and of the name, and
`fgets` returns a line that is longer than its buffer in fragments. Reading a text
stays in its buffers and its lines exactly when the text has no such fields and no
such fragments (`DwBpf.contained_iff`), and among the texts that the kernel prints
these are those whose names are all shorter than `PATH_MAX`.
-/

namespace DwBpf

open Scan

/-- Results of `fgets`, each with whether it continues the line of the one before. -/
def continued : Bool → List (List Char) → List (Bool × List Char)
  | _, [] => []
  | continues, bf :: rest =>
      (continues, bf) :: continued (decide (bf.getLast? ≠ some '\n')) rest

/-- The fragments in which a text is read. -/
def fragments (text : List Char) : List (Bool × List Char) :=
  continued false (chunks bufsiz text [])

/-- What is read from the fragments fits the buffers, and no fragment that continues a
line gives an event. -/
def Contained (tgid tid : Pid) : List (Bool × List Char) → Scratch → Prop
  | [], _ => True
  | (continues, bf) :: rest, scratch => ∃ event next,
      scratch.line bf tgid tid = .ok (event, next) ∧ (continues = true → event = none) ∧
        Contained tgid tid rest next

/-- The fields of a fragment. -/
def fields (bf : List Char) : List Value := scan mapsFormat (bf.takeWhile (· ≠ '\x00'))

/-- The permissions and the name in a fragment are short enough for their buffers. -/
def Short (bf : List Char) : Prop :=
  ((textAt (fields bf) 2).getD []).length < 5 ∧
    ((textAt (fields bf) 7).getD []).length < pathMax

/-- The third permission after a fragment, which one of a single character leaves as
it was. -/
def third (old : Char) (bf : List Char) : Char :=
  match textAt (fields bf) 2 with
  | none => old
  | some perms => if perms.length < 2 then old else perms.getD 2 '\x00'

/-- All fields are short, and no fragment that continues a line has the fields of an
executable mapping. -/
def Harmless : Char → List (Bool × List Char) → Prop
  | _, [] => True
  | old, (continues, bf) :: rest =>
      Short bf ∧ (continues = true → 7 ≤ (fields bf).length → third old bf ≠ 'x') ∧
        Harmless (third old bf) rest

theorem storeProt_third (prot : Fin 5 → Char) (perms : List Char) :
    storeProt prot perms 2 = if perms.length < 2 then prot 2 else perms.getD 2 '\x00' := by
  have index : (2 : Fin 5).val = 2 := rfl
  rw [storeProt, index]
  by_cases long : 2 < perms.length
  · rw [if_pos long, if_neg (by omega)]
  · rw [if_neg long]
    by_cases two : 2 = perms.length
    · rw [if_pos two, if_neg (by omega), List.getD_eq_getElem?_getD,
        List.getElem?_eq_none (by omega), Option.getD_none]
    · rw [if_neg two, if_pos (by omega)]

/-- A fragment is read unless a field is too long. -/
theorem Scratch.line_of_short (scratch : Scratch) {bf : List Char} (short : Short bf)
    (tgid tid : Pid) :
    ∃ event next, scratch.line bf tgid tid = .ok (event, next) ∧
      next.prot 2 = third (scratch.prot 2) bf ∧
      (event = none ↔ (7 ≤ (fields bf).length → third (scratch.prot 2) bf ≠ 'x')) := by
  have fits : ¬ (5 ≤ ((textAt (fields bf) 2).getD []).length ∨
      pathMax ≤ ((textAt (fields bf) 7).getD []).length) := by
    rw [not_or, Nat.not_le, Nat.not_le]
    exact short
  have stored : ((textAt (fields bf) 2).map (storeProt scratch.prot)).getD scratch.prot 2 =
      third (scratch.prot 2) bf := by
    unfold third
    cases textAt (fields bf) 2 with
    | none => rfl
    | some perms => exact storeProt_third scratch.prot perms
  unfold Scratch.line Scratch.assign
  rw [← fields]
  dsimp only
  rw [if_neg fits, ok_bind]
  dsimp only
  by_cases few : (fields bf).length < 7
  · rw [if_pos few]
    refine ⟨_, _, rfl, stored, iff_of_true rfl ?_⟩
    intro many
    exact absurd few (Nat.not_lt.mpr many)
  · rw [if_neg few]
    by_cases other : third (scratch.prot 2) bf ≠ 'x'
    · rw [if_pos (by rw [← stored] at other; exact other)]
      exact ⟨_, _, rfl, stored, iff_of_true rfl fun _ => other⟩
    · rw [if_neg (by rw [← stored] at other; exact other)]
      refine ⟨_, _, rfl, stored, iff_of_false (Option.some_ne_none _) ?_⟩
      intro none
      exact other (none (Nat.not_lt.mp few))

theorem Scratch.line_of_not_short (scratch : Scratch) {bf : List Char} (long : ¬ Short bf)
    (tgid tid : Pid) : scratch.line bf tgid tid = .error .outOfBounds := by
  have overflows : 5 ≤ ((textAt (fields bf) 2).getD []).length ∨
      pathMax ≤ ((textAt (fields bf) 7).getD []).length := by
    rw [Short, not_and_or, Nat.not_lt, Nat.not_lt] at long
    exact long
  unfold Scratch.line Scratch.assign
  rw [← fields]
  dsimp only
  rw [if_pos overflows]
  rfl

/-- Reading stays in its buffers and in its lines exactly when the fragments are
harmless. -/
theorem contained_iff (tgid tid : Pid) (pieces : List (Bool × List Char)) (scratch : Scratch) :
    Contained tgid tid pieces scratch ↔ Harmless (scratch.prot 2) pieces := by
  induction pieces generalizing scratch with
  | nil => exact Iff.rfl
  | cons piece pieces ih =>
      obtain ⟨continues, bf⟩ := piece
      by_cases short : Short bf
      · obtain ⟨event, next, read, kept, none⟩ := scratch.line_of_short short tgid tid
        rw [Harmless, ← kept, ← ih next, kept, ← none]
        constructor
        · rintro ⟨event', next', read', quiet, rest⟩
          cases read.symm.trans read'
          exact ⟨short, quiet, rest⟩
        · rintro ⟨-, quiet, rest⟩
          exact ⟨event, next, read, quiet, rest⟩
      · apply iff_of_false
        · rintro ⟨event, next, read, -⟩
          cases (scratch.line_of_not_short short tgid tid).symm.trans read
        · rintro ⟨isShort, -⟩
          exact short isShort

namespace Scan

/-- The first result of `fgets` is as much of the first line as fits the buffer. -/
theorem chunks_first {size : Nat} {body begun : List Char} (text : List Char)
    (plain : '\n' ∉ body) (room : begun.length + 1 < size) :
    ∃ others, chunks size (body ++ '\n' :: text) begun =
      (begun ++ (body ++ ['\n']).take (size - 1 - begun.length)) :: others := by
  induction body generalizing begun with
  | nil =>
      refine ⟨chunks size text [], ?_⟩
      rw [List.nil_append, chunks, if_pos (.inl rfl), List.nil_append,
        List.take_of_length_le (by rw [List.length_singleton]; omega)]
  | cons char body ih =>
      have other : char ≠ '\n' := fun same => plain (by simp [same])
      obtain ⟨count, isCount⟩ : ∃ count, size - 1 - begun.length = count + 1 :=
        ⟨size - 1 - begun.length - 1, by omega⟩
      rw [isCount, List.cons_append, List.cons_append, chunks, List.take_succ_cons]
      by_cases full : begun.length + 2 = size
      · rw [if_pos (.inr full), show count = 0 by omega, List.take_zero]
        exact ⟨_, rfl⟩
      · rw [if_neg (not_or_intro other full)]
        obtain ⟨others, first⟩ := ih (fun member => plain (List.mem_cons_of_mem _ member))
          (show (begun ++ [char]).length + 1 < size by
            rw [List.length_append, List.length_singleton]; omega)
        refine ⟨others, ?_⟩
        rw [first, List.length_append, List.length_singleton, List.append_assoc,
          List.singleton_append, show size - 1 - (begun.length + 1) = count by omega]

end Scan

namespace VmaRecord

variable (record : VmaRecord)

theorem plain_mapping : '\n' ∉ record.mapping.body := fun member =>
  (record.mapping.plain_body record.plain _ member).1 rfl

/-- A short line comes first, and the rest is read after it. -/
theorem chunks_cons (short : record.name.length < pathMax) (text : List Char) :
    chunks bufsiz (record.mapping.line ++ text) [] =
      record.mapping.line :: chunks bufsiz text [] := by
  have fits := (record.vma short).lineFits
  change record.mapping.line.length < bufsiz at fits
  rw [Mapping.line, List.length_append, List.length_singleton] at fits
  rw [Mapping.line, List.append_assoc, List.singleton_append,
    chunks_body record.plain_mapping (by rw [List.length_nil]; omega), List.nil_append]

/-- The first fragment of a line with a long name: a part of the name that does not
fit, and the newline if there is room for it. -/
theorem exists_part :
    ∃ count tail, pathMax ≤ count ∧ (∀ char ∈ tail, char = '\n') ∧
      record.mapping.line.take (bufsiz - 1) = record.mapping.header ++
        (List.replicate record.mapping.pad ' ' ++ (record.name.take count ++ tail)) := by
  have whole : record.mapping.line = (record.mapping.header ++
      List.replicate record.mapping.pad ' ') ++ (record.name ++ ['\n']) := by
    rw [Mapping.line, Mapping.body_eq, List.append_assoc, List.append_assoc, List.append_assoc]
    rfl
  have front : (record.mapping.header ++ List.replicate record.mapping.pad ' ').length ≤ 169 := by
    have bound := record.length_line_mapping
    rw [whole] at bound
    simp only [List.length_append] at bound ⊢
    omega
  refine ⟨bufsiz - 1 - (record.mapping.header ++ List.replicate record.mapping.pad ' ').length,
    ['\n'].take (bufsiz - 1 - (record.mapping.header ++
      List.replicate record.mapping.pad ' ').length - record.name.length), ?_, ?_, ?_⟩
  · exact Nat.le_sub_of_add_le (Nat.le_trans (Nat.add_le_add_left front _) (by decide))
  · intro char member
    exact List.mem_singleton.mp (List.mem_of_mem_take member)
  · rw [whole, List.take_append, List.take_of_length_le (Nat.le_trans front (by decide)),
      List.take_append, List.append_assoc]

/-- A line holds no terminator. -/
theorem takeWhile_take (count : Nat) :
    (record.mapping.line.take count).takeWhile (· ≠ '\x00') = record.mapping.line.take count := by
  rw [List.takeWhile_eq_self_iff]
  intro char member
  rcases List.mem_append.mp (List.mem_of_mem_take member) with inBody | newline
  · exact decide_eq_true (record.mapping.plain_body record.plain char inBody).2
  · rw [List.mem_singleton.mp newline]
    rfl

/-- The first fragment of a line with a long name holds more of it than fits. -/
theorem not_short_of_long (long : pathMax ≤ record.name.length) :
    ¬ Short (record.mapping.line.take (bufsiz - 1)) := by
  obtain ⟨count, tail, large, ends, isFirst⟩ := record.exists_part
  have nonempty : record.name.take count ≠ [] := by
    rw [← List.length_pos_iff, List.length_take]
    exact Nat.lt_of_lt_of_le (by decide) (Nat.le_min.mpr ⟨large, long⟩)
  have flush : ∀ char ∈ (record.name.take count).head?, isBlank char = false := by
    rw [List.head?_take, if_neg (Nat.ne_of_gt (Nat.lt_of_lt_of_le (by decide) large))]
    exact record.flush
  have read : fields (record.mapping.line.take (bufsiz - 1)) =
      record.mapping.values ++ .text (record.name.take count) :: scan [.blank] tail := by
    rw [fields, record.takeWhile_take, isFirst, Mapping.scan_header,
      scan_blank_line nonempty flush
        (fun char member => (record.plain char (List.mem_of_mem_take member)).1)
        fun char member => ends char (List.mem_of_mem_head? member)]
  have name : textAt (record.mapping.values ++ .text (record.name.take count) ::
      scan [.blank] tail) 7 = some (record.name.take count) := rfl
  rw [Short, read, name, Option.getD_some, List.length_take]
  intro short
  exact absurd short.2 (Nat.not_lt.mpr (Nat.le_min.mpr ⟨large, long⟩))

end VmaRecord

/-- A text of the kernel is read within the buffers and the lines exactly when all
names are short. -/
theorem contained_recordsText_iff (tgid tid : Pid) (records : List VmaRecord)
    (scratch : Scratch) :
    Contained tgid tid (fragments (recordsText records)) scratch ↔
      ∀ record ∈ records, record.name.length < pathMax := by
  unfold fragments
  induction records generalizing scratch with
  | nil => exact iff_of_true trivial fun _ member => absurd member List.not_mem_nil
  | cons record records ih =>
      have text : recordsText (record :: records) =
          record.mapping.line ++ recordsText records := rfl
      rw [List.forall_mem_cons, text]
      by_cases short : record.name.length < pathMax
      · have ends : record.mapping.line.getLast? = some '\n' := List.getLast?_concat
        rw [record.chunks_cons short, continued, ends, and_iff_right short]
        obtain ⟨next, read, -⟩ := scratch.line_of_vma (record.vma short) tgid tid
        rw [← ih next]
        constructor
        · rintro ⟨event, after, read', -, rest⟩
          cases read.symm.trans read'
          exact rest
        · intro rest
          exact ⟨_, next, read, fun continues => absurd continues Bool.false_ne_true, rest⟩
      · obtain ⟨others, first⟩ := chunks_first (recordsText records) record.plain_mapping
          (show ([] : List Char).length + 1 < bufsiz by decide)
        rw [Mapping.line, List.append_assoc, List.singleton_append, first]
        apply iff_of_false
        · rintro ⟨event, next, read, -⟩
          cases (scratch.line_of_not_short (record.not_short_of_long (Nat.not_lt.mp short)) tgid
            tid).symm.trans read
        · intro all
          exact short all.1

/-- Reading a text stays in its buffers and in its lines exactly when its fragments
are harmless; of the texts that the kernel prints, exactly when the names in it are
shorter than `PATH_MAX`. -/
theorem prepareMmap_contained_iff (tgid tid : Pid) (scratch : Scratch) :
    (∀ text, Contained tgid tid (fragments text) scratch ↔
      Harmless (scratch.prot 2) (fragments text)) ∧
    ∀ records, Contained tgid tid (fragments (recordsText records)) scratch ↔
      ∀ record ∈ records, record.name.length < pathMax :=
  ⟨fun text => contained_iff tgid tid (fragments text) scratch,
    fun records => contained_recordsText_iff tgid tid records scratch⟩

/-- An executable file `depth` directories deep. -/
def VmaRecord.deep (depth : Nat) : VmaRecord where
  start := 0x400000
  stop := 0x48c000
  read := true
  write := false
  exec := true
  shared := false
  pgoff := 0
  maj := 0xfd
  min := 3
  ino := 960637
  name := (List.replicate depth ['/', 'd']).flatten
  nonempty := lsText_nonempty
  plain := by
    intro char member
    obtain ⟨part, inParts, inPart⟩ := List.mem_flatten.mp member
    rw [(List.mem_replicate.mp inParts).2] at inPart
    rcases List.mem_pair.mp inPart with rfl | rfl
    · decide
    · decide
  flush := by
    cases depth with
    | zero => exact fun _ member => absurd member (Option.not_mem_none _)
    | succ depth =>
        rintro char ⟨⟩
        rfl

theorem VmaRecord.length_deep (depth : Nat) : (VmaRecord.deep depth).name.length = depth * 2 := by
  simp [VmaRecord.deep]

/-- A path of 4096 characters does not leave room for its terminator. -/
theorem deep_not_contained :
    ¬ Contained 1 1 (fragments (recordsText [VmaRecord.deep 2048]))
      ⟨⟨0, 0, 0, 0, 0, 0, 0, 0, 0, 0, 0, []⟩, fun _ => '\x00'⟩ := by
  rw [contained_recordsText_iff]
  intro short
  have fits := short (VmaRecord.deep 2048) (List.mem_singleton_self _)
  rw [VmaRecord.length_deep] at fits
  exact absurd fits (by decide)

end DwBpf
