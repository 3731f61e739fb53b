import DwBpf.Event.ProcMaps

/-! # Reading back the mappings of a process

What the kernel prints for its mappings, with names of any length at their column,
and that the maps of a process are recorded as they were printed
(`DwBpf.threadMap_of_records`).
-/

namespace DwBpf

open Scan

namespace Scan

/-- A number has as many digits as it needs, and at least the width. -/
theorem length_printed_le {base width number digits : Nat} (large : 1 < base) (some : 0 < digits)
    (fits : number < base ^ digits) (wide : width ≤ digits) :
    (printed base width number).length ≤ digits := by
  rw [printed, List.length_leftpad]
  exact Nat.max_le.mpr ⟨wide, (Nat.length_toDigits_le_iff large some).mpr fits⟩

end Scan

/-- A mapping of the kernel. Its name, if it has one, does not begin with a blank, and
newlines in it are printed as escapes. -/
structure VmaRecord where
  start : U64
  stop : U64
  read : Bool
  write : Bool
  exec : Bool
  shared : Bool
  pgoff : U64
  maj : U32
  min : U32
  ino : U64
  name : List Char
  nonempty : start < stop
  plain : ∀ char ∈ name, char ≠ '\n' ∧ char ≠ '\x00'
  flush : ∀ char ∈ name.head?, isBlank char = false

namespace VmaRecord

variable (record : VmaRecord)

/-- What is printed of a mapping without a name. -/
def nameless : Mapping where
  start := record.start
  stop := record.stop
  read := record.read
  write := record.write
  exec := record.exec
  shared := record.shared
  pgoff := record.pgoff
  maj := record.maj
  min := record.min
  ino := record.ino
  pad := 0
  name := []

/-- What `show_map_vma` prints: a name begins in column 73, or after two blanks. -/
def mapping : Mapping :=
  { record.nameless with
    pad := if record.name = [] then 0 else 72 - record.nameless.body.length + 1
    name := record.name }

/-- The event for a mapping with an inode below `2 ^ 32`. -/
def event (inoGeneration : U64) (tgid tid : Pid) : MmapEvent where
  tgid := tgid
  tid := tid
  start := record.start
  len := record.stop - record.start
  pgoff := record.pgoff
  maj := record.maj
  min := record.min
  ino := record.ino
  inoGeneration := inoGeneration
  prot := (if record.read then 1 else 0) ||| (if record.write then 2 else 0) |||
    (if record.exec then 4 else 0)
  flags := if record.shared then 1 else 2
  filename := if record.name = [] then "//anon".toList else record.name

/-- The fields of a line take 95 characters at most, besides the padding and the name. -/
theorem length_body (mapping : Mapping) :
    mapping.body.length ≤ 95 + mapping.pad + mapping.name.length := by
  have wide : ∀ value : U64, (printed 16 8 value.toNat).length ≤ 16 := fun value =>
    length_printed_le (by decide) (by decide) value.isLt (by decide)
  have narrow : ∀ value : U32, (printed 16 2 value.toNat).length ≤ 8 := fun value =>
    length_printed_le (by decide) (by decide) value.isLt (by decide)
  have decimal : (printed 10 0 mapping.ino.toNat).length ≤ 20 :=
    length_printed_le (by decide) (by decide)
      (Nat.lt_trans mapping.ino.isLt (by decide)) (by decide)
  have start := wide mapping.start
  have stop := wide mapping.stop
  have pgoff := wide mapping.pgoff
  have maj := narrow mapping.maj
  have min := narrow mapping.min
  have perms : mapping.perms.length = 4 := rfl
  simp only [Mapping.body, List.flatten_cons, List.flatten_nil, List.append_nil,
    List.length_append, List.length_singleton, List.length_replicate, perms]
  calc
    _ ≤ 16 + (1 + (16 + (1 + (4 + (1 + (16 + (1 + (8 + (1 + (8 + (1 + (20 + (1 +
        (mapping.pad + mapping.name.length)))))))))))))) := by
      gcongr
    _ = 95 + mapping.pad + mapping.name.length := by simp only [← Nat.add_assoc, Nat.reduceAdd]

theorem length_line_mapping (record : VmaRecord) :
    record.mapping.line.length ≤ 169 + record.name.length := by
  have body := length_body record.mapping
  have pad : record.mapping.pad ≤ 73 := by
    unfold mapping
    dsimp only
    split <;> omega
  rw [Mapping.line, List.length_append, List.length_singleton]
  change _ ≤ 95 + record.mapping.pad + record.name.length at body
  omega

end VmaRecord

/-- The maps file of a process with these mappings. -/
def recordsText (records : List VmaRecord) : List Char :=
  (records.map fun record => record.mapping.line).flatten

namespace VmaRecord

/-- A mapping with a short name has a line that fits the buffers. -/
def vma (record : VmaRecord) (short : record.name.length < pathMax) : Vma where
  toMapping := record.mapping
  nonempty := record.nonempty
  plain := record.plain
  flush := record.flush
  nameFits := short
  lineFits := Nat.lt_of_le_of_lt record.length_line_mapping
    (Nat.lt_of_lt_of_le (Nat.add_lt_add_left short 169) (by decide))

theorem event_vma (record : VmaRecord) (short : record.name.length < pathMax)
    (small : record.ino.toNat < 2 ^ 32) (inoGeneration : U64) (tgid tid : Pid) :
    (record.vma short).event inoGeneration tgid tid = record.event inoGeneration tgid tid := by
  have ino : ((record.vma short).ino.setWidth 32).setWidth 64 = record.ino := by
    apply BitVec.eq_of_toNat_eq
    change ((record.ino.setWidth 32).setWidth 64).toNat = record.ino.toNat
    rw [BitVec.toNat_setWidth, BitVec.toNat_setWidth, Nat.mod_eq_of_lt small,
      Nat.mod_eq_of_lt record.ino.isLt]
  rw [Vma.event, ino]
  rfl

/-- Short mappings, with what is printed and read of them. -/
theorem exists_vmas {records : List VmaRecord}
    (short : ∀ record ∈ records, record.name.length < pathMax)
    (small : ∀ record ∈ records, record.ino.toNat < 2 ^ 32) (inoGeneration : U64)
    (tgid tid : Pid) :
    ∃ vmas : List Vma, mapsText vmas = recordsText records ∧
      ((vmas.filter fun vma => vma.exec).map fun vma => vma.event inoGeneration tgid tid) =
        (records.filter fun record => record.exec).map fun record =>
          record.event inoGeneration tgid tid := by
  induction records with
  | nil => exact ⟨[], rfl, rfl⟩
  | cons record records ih =>
      have fits := short record (List.mem_cons_self ..)
      obtain ⟨vmas, text, events⟩ := ih (fun other member => short other (.tail _ member))
        fun other member => small other (.tail _ member)
      refine ⟨record.vma fits :: vmas, congrArg (record.mapping.line ++ ·) text, ?_⟩
      have same : (record.vma fits).exec = record.exec := rfl
      have read := record.event_vma fits (small record (List.mem_cons_self ..)) inoGeneration tgid
        tid
      rw [List.filter_cons, List.filter_cons, same]
      cases record.exec with
      | true =>
          rw [if_pos rfl, if_pos rfl, List.map_cons, List.map_cons, read, events]
      | false =>
          rw [if_neg Bool.false_ne_true, if_neg Bool.false_ne_true, events]

end VmaRecord

/-- The maps of a process are recorded as its mappings were printed: one for each
executable mapping, in order, with nothing of an earlier line in it. -/
theorem threadMap_of_records {records : List VmaRecord}
    (short : ∀ record ∈ records, record.name.length < pathMax)
    (small : ∀ record ∈ records, record.ino.toNat < 2 ^ 32) (scratch : Scratch)
    (tgid tid : Pid) (created : Bool) :
    ∃ events : List MmapEvent,
      events = ((records.filter fun record => record.exec).map fun record =>
        record.event scratch.event.inoGeneration tgid tid) ∧
      (Call.threadMap tgid tid (some (recordsText records)) scratch created).visits =
        events.map (fun event => .record event created) ∧
      (∀ {τ : Type} (lookup : Lookup τ) (machine : State τ),
        threadMap lookup machine tgid tid (some (recordsText records)) scratch created =
          (runAll (fun event machine => processMmap lookup machine event created) events
            machine).map fun result => (0, result.2)) ∧
      ∀ record ∈ records, (record.event scratch.event.inoGeneration tgid tid).start +
        (record.event scratch.event.inoGeneration tgid tid).len = record.stop := by
  obtain ⟨vmas, text, same⟩ :=
    VmaRecord.exists_vmas short small scratch.event.inoGeneration tgid tid
  have visits : visitLines tgid tid created (chunks bufsiz (recordsText records) []) scratch =
      ((records.filter fun record => record.exec).map fun record =>
        record.event scratch.event.inoGeneration tgid tid).map
          fun event => .record event created := by
    rw [← text, Vma.chunks_mapsText, visitLines_of_vmas, ← same, List.map_map]
    rfl
  refine ⟨_, rfl, visits, ?_, ?_⟩
  · intro τ lookup machine
    rw [threadMap, prepareLines_eq_visits, visits, runAll_map]
    change (runAll (fun event machine => processMmap lookup machine event created) _ machine).map
      Prod.snd >>= _ = _
    cases runAll (fun event machine => processMmap lookup machine event created) _ machine with
    | error failure => rfl
    | ok result => rfl
  · intro record member
    change record.start + (record.stop - record.start) = record.stop
    rw [BitVec.add_comm, BitVec.sub_add_cancel]

/-- The text of `/bin/ls` and its stack. -/
def VmaRecord.ls : List VmaRecord :=
  [⟨0x400000, 0x48c000, true, false, true, false, 0, 0xfd, 3, 960637, "/bin/ls".toList,
      lsText_nonempty, lsName_plain, lsName_flush⟩,
    ⟨0x7ffff000, 0x80000000, true, true, false, false, 0, 0, 0, 0, [], by decide, by simp,
      by simp⟩]

theorem threadMap_of_records_ls :
    ∃ events : List MmapEvent,
      events.map (fun event => (event.start, event.len, event.filename)) =
        [(0x400000, 0x8c000, "/bin/ls".toList)] ∧
      (Call.threadMap 1 1 (some (recordsText VmaRecord.ls))
          ⟨⟨0, 0, 0, 0, 0, 0, 0, 0, 0, 0, 0, []⟩, fun _ => '\x00'⟩ true).visits =
        events.map (fun event => .record event true) := by
  have short : ∀ record ∈ VmaRecord.ls, record.name.length < pathMax := by
    intro record member
    rcases List.mem_pair.mp member with rfl | rfl
    · decide
    · decide
  have small : ∀ record ∈ VmaRecord.ls, record.ino.toNat < 2 ^ 32 := by
    intro record member
    rcases List.mem_pair.mp member with rfl | rfl
    · decide
    · decide
  obtain ⟨events, rfl, visits, -⟩ := threadMap_of_records short small
    ⟨⟨0, 0, 0, 0, 0, 0, 0, 0, 0, 0, 0, []⟩, fun _ => '\x00'⟩ 1 1 true
  exact ⟨_, rfl, visits⟩

end DwBpf
