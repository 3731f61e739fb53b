import DwBpf.Event.Table
import DwBpf.Unwind.Framing

/-! # Where the header was buffered

A relative count is relative to the header in the memory of the process that decodes
it. Otherwise nothing that is decoded depends on where the header was buffered, and
`find_proc_info` hands the same table to libunwind in every run on the same files
(`DwBpf.unbuffered_iff`).
-/

namespace DwBpf

variable {disk : Disk} {store next : Store} {info : UnwindInfo}

/-- Somewhere in a run on the disk a walk over a stack calls `find_proc_info`, and the map
around the instruction pointer has a range of the file `name` at `pgoff`: this is what it
hands to libunwind. -/
def Disk.Hands (disk : Disk) (start stop pgoff : U64) (name : List Char)
    (table : Option DynInfo) : Prop :=
  ∃ calls replies machine info store ip os elf searched status after map dso,
    EachStep Machine.step (fun machine call => call.Answered disk machine) calls Machine.new ∧
    runAll Machine.step calls Machine.new = .ok (replies, machine) ∧
    machine.store.Walked disk info store ∧
    (Request.findProcInfo ip os elf searched).Answered disk info store ∧
    findProcInfo os elf searched store info ip = .ok ((status, table), after) ∧
    findMap store info ip = .ok (some map) ∧ map.start = start ∧ map.stop = stop ∧
    map.pgoff = pgoff ∧ store.dsos.get? map.dso = some dso ∧ dso.longName = name

section Hands

variable {start stop pgoff : U64} {name : List Char} {table : Option DynInfo}

/-- The table is the one of the section in the file, decoded at some address. -/
theorem Disk.Hands.decoded (hands : disk.Hands start stop pgoff name table) :
    ∃ address, table = (disk.spec address name).map fun spec =>
      ⟨start, stop, start + spec.segbase - pgoff, start + spec.tableData - pgoff,
        spec.fdeCount * 8 / 8⟩ := by
  obtain ⟨calls, replies, machine, info, store, ip, os, elf, searched, status, after, map, dso,
    each, ran, walked, answered, proc, found, rfl, rfl, rfl, live, rfl⟩ := hands
  have onDisk := walked.onDisk (Machine.onDisk_of_answered each ran)
  obtain ⟨other, -, goes⟩ := findProcInfo_of_onDisk onDisk found live
    (answered.file os map.dso dso ⟨ip, map, rfl, found, rfl⟩ live)
    (answered.hdr ip os elf searched map dso rfl found live) searched
  refine ⟨elf.address, ?_⟩
  rw [proc] at goes
  cases decoded : disk.spec elf.address dso.longName with
  | none =>
      rw [decoded] at goes
      cases goes
      rfl
  | some spec =>
      rw [decoded] at goes
      cases goes
      rfl

end Hands

/-- What is decoded of a header at an offset of a file is the same wherever the header was
buffered, eight times the count does not wrap, and so in all runs on the same files the
same table is handed out for the same range, with as many entries as were decoded. -/
structure Unbuffered (offset : U64) (hdr : Header) : Prop where
  same : ∀ address address', UnwindSpec.ofHeader address offset hdr.bytes =
    UnwindSpec.ofHeader address' offset hdr.bytes
  fits : ∀ address spec, UnwindSpec.ofHeader address offset hdr.bytes = some spec →
    8 * spec.fdeCount.toNat < 2 ^ 64
  handed : ∀ (disk : Disk) name, disk.hdrs name = offset →
    ((disk.files name).bytes.drop offset.toNat).take hdrSize = hdr.bytes →
    ∀ start stop pgoff table table', disk.Hands start stop pgoff name table →
      disk.Hands start stop pgoff name table' → table = table' ∧
      ∀ di address spec, table = some di →
        UnwindSpec.ofHeader address offset hdr.bytes = some spec → di.tableLen = spec.fdeCount

/-- The number in the bytes that are taken for the count. -/
def Header.number (hdr : Header) : Int :=
  encodedNumber hdr.countEnc ((takenSize hdr.countEnc).getD 0)
    ((hdr.bytes.drop (4 + (takenSize hdr.ptrEnc).getD 0)).take ((takenSize hdr.countEnc).getD 0))

section Number

variable {address offset : U64} {hdr : Header}

/-- A number of at most eight bytes lies between the signed and the unsigned bounds. -/
theorem encodedNumber_bounds {encoding : Byte} {size : Nat} {bytes : List Byte} (small : size ≤ 8) :
    -2 ^ 63 ≤ encodedNumber encoding size bytes ∧ encodedNumber encoding size bytes < 2 ^ 64 := by
  have wide : (2 : Int) ^ (8 * size) ≤ 2 ^ 64 := by
    exact_mod_cast Nat.pow_le_pow_right (by decide : 0 < 2) (by omega : 8 * size ≤ 64)
  have above := (littleEndian (8 * size) bytes).isLt
  unfold encodedNumber
  split
  · have above' : ((littleEndian (8 * size) bytes).toNat : Int) < 2 ^ (8 * size) := by
      exact_mod_cast above
    omega
  · have low := BitVec.le_toInt (littleEndian (8 * size) bytes)
    have high := BitVec.toInt_lt (x := littleEndian (8 * size) bytes)
    have half : (2 : Int) ^ (8 * size - 1) ≤ 2 ^ 63 := by
      exact_mod_cast Nat.pow_le_pow_right (by decide : 0 < 2) (by omega : 8 * size - 1 ≤ 63)
    omega

theorem toNat_ofInt_lt_iff {number : Int} (low : -2 ^ 63 ≤ number) (high : number < 2 ^ 64) :
    8 * (BitVec.ofInt 64 number).toNat < 2 ^ 64 ↔ 0 ≤ number ∧ number < 2 ^ 61 := by
  rw [BitVec.toNat_ofInt]
  by_cases negative : number < 0
  · have wraps : number % ((2 ^ 64 : Nat) : Int) = number + 2 ^ 64 := by
      rw [← Int.add_emod_right]
      exact Int.emod_eq_of_lt (by omega) (by omega)
    rw [wraps]
    omega
  · rw [Int.emod_eq_of_lt (by omega) (by omega)]
    omega

/-- What is decoded of a header with supported encodings. -/
theorem Header.ofHeader_of_supported (address offset : U64) (ptrSupported : Supported hdr.ptrEnc)
    (countSupported : Supported hdr.countEnc) :
    UnwindSpec.ofHeader address offset hdr.bytes =
      some ⟨BitVec.ofNat 64 (4 + (takenSize hdr.ptrEnc).getD 0 + (takenSize hdr.countEnc).getD 0) +
          offset, offset,
        encodedBase address (4 + (takenSize hdr.ptrEnc).getD 0) hdr.countEnc +
          BitVec.ofInt 64 hdr.number⟩ := by
  obtain ⟨ptrTaken, isPtrTaken⟩ := taken_of_supported ptrSupported
  obtain ⟨countTaken, isCountTaken⟩ := taken_of_supported countSupported
  rw [ofHeader_of_taken isPtrTaken isCountTaken, number, isPtrTaken, isCountTaken]
  rfl

theorem Header.number_bounds (countSupported : Supported hdr.countEnc) :
    -2 ^ 63 ≤ hdr.number ∧ hdr.number < 2 ^ 64 := by
  obtain ⟨countTaken, isCountTaken⟩ := taken_of_supported countSupported
  apply encodedNumber_bounds
  rw [isCountTaken]
  exact takenSize_le isCountTaken

end Number

/-- The count, if the header is decoded, is relative to nothing, and eight times it is a
64-bit number. -/
def Header.Countable (hdr : Header) : Prop :=
  Supported hdr.ptrEnc → Supported hdr.countEnc →
    hdr.countEnc &&& 0x70 ≠ 0x10 ∧ 0 ≤ hdr.number ∧ hdr.number < 2 ^ 61

namespace Header.Countable

variable {address address' offset : U64} {hdr : Header}

theorem same (countable : hdr.Countable) :
    UnwindSpec.ofHeader address offset hdr.bytes =
      UnwindSpec.ofHeader address' offset hdr.bytes := by
  by_cases both : Supported hdr.ptrEnc ∧ Supported hdr.countEnc
  · have absolute := (countable both.1 both.2).1
    rw [ofHeader_of_supported _ _ both.1 both.2, ofHeader_of_supported _ _ both.1 both.2,
      encodedBase, encodedBase, if_neg absolute, if_neg absolute]
  · have refused : ∀ address, UnwindSpec.ofHeader address offset hdr.bytes = none := by
      intro address
      cases decoded : UnwindSpec.ofHeader address offset hdr.bytes with
      | none => rfl
      | some spec => exact absurd (supported_of_ofHeader decoded) both
    rw [refused, refused]

theorem fits (countable : hdr.Countable) {spec : UnwindSpec}
    (decoded : UnwindSpec.ofHeader address offset hdr.bytes = some spec) :
    8 * spec.fdeCount.toNat < 2 ^ 64 := by
  obtain ⟨ptrSupported, countSupported⟩ := supported_of_ofHeader decoded
  obtain ⟨absolute, counts⟩ := countable ptrSupported countSupported
  obtain ⟨low, high⟩ := number_bounds countSupported
  rw [ofHeader_of_supported _ _ ptrSupported countSupported] at decoded
  cases decoded
  change 8 * (encodedBase _ _ _ + BitVec.ofInt 64 hdr.number).toNat < 2 ^ 64
  rw [encodedBase, if_neg absolute, zero_add]
  exact (toNat_ofInt_lt_iff low high).mpr counts

end Header.Countable

theorem Disk.spec_of_hdr {offset address : U64} {name : List Char} {spec : UnwindSpec}
    {bytes : List Byte} (hdrs : disk.hdrs name = offset)
    (start : ((disk.files name).bytes.drop offset.toNat).take hdrSize = bytes)
    (decoded : disk.spec address name = some spec) :
    UnwindSpec.ofHeader address offset bytes = some spec := by
  subst hdrs
  unfold Disk.spec at decoded
  split at decoded
  · rw [start] at decoded
    exact decoded
  · cases decoded

/-- If the header is decoded in the same way everywhere, so are the files that have it. -/
theorem Disk.spec_congr {offset : U64} {name : List Char} {bytes : List Byte}
    (hdrs : disk.hdrs name = offset)
    (start : ((disk.files name).bytes.drop offset.toNat).take hdrSize = bytes)
    (same : ∀ address address', UnwindSpec.ofHeader address offset bytes =
      UnwindSpec.ofHeader address' offset bytes) (address address' : U64) :
    disk.spec address name = disk.spec address' name := by
  subst hdrs
  unfold Disk.spec
  rw [start, same address address']

/-- What is decoded of a header does not depend on where it was buffered, exactly if its
count is relative to nothing and small enough, or it is not decoded at all. -/
theorem unbuffered_iff (offset : U64) (hdr : Header) :
    Unbuffered offset hdr ↔ hdr.Countable := by
  constructor
  · intro unbuffered ptrSupported countSupported
    have decoded := fun address =>
      Header.ofHeader_of_supported address offset ptrSupported countSupported
    have absolute : hdr.countEnc &&& 0x70 ≠ 0x10 := by
      intro relative
      have same := unbuffered.same 0 1
      rw [decoded, decoded, encodedBase, encodedBase, if_pos relative, if_pos relative] at same
      have bases := congrArg UnwindSpec.fdeCount (Option.some.inj same)
      have addresses := (BitVec.add_left_inj _).mp ((BitVec.add_left_inj _).mp bases)
      exact absurd addresses (by decide)
    obtain ⟨low, high⟩ := Header.number_bounds countSupported
    have fits := unbuffered.fits 0 _ (decoded 0)
    change 8 * (encodedBase _ _ _ + BitVec.ofInt 64 hdr.number).toNat < 2 ^ 64 at fits
    rw [encodedBase, if_neg absolute, zero_add] at fits
    exact ⟨absolute, (toNat_ofInt_lt_iff low high).mp fits⟩
  · intro countable
    refine ⟨fun _ _ => countable.same, fun _ _ => countable.fits, ?_⟩
    intro disk name hdrs start first stop pgoff table table' hands hands'
    obtain ⟨address, rfl⟩ := hands.decoded
    obtain ⟨address', rfl⟩ := hands'.decoded
    refine ⟨?_, ?_⟩
    · rw [Disk.spec_congr hdrs start (fun _ _ => countable.same) address address']
    · intro di address'' spec handed decoded
      obtain ⟨spec', isSpec, rfl⟩ := Option.map_eq_some_iff.mp handed
      have decoded' := Disk.spec_of_hdr hdrs start isSpec
      rw [countable.same, decoded] at decoded'
      cases decoded'
      exact mul_div_eight (countable.fits decoded)

/-- A header whose count is relative to its own address. -/
def relativeHeader : Header where
  bytes := [1, 0x1b, 0x1b, 0x3b, 0x40, 0, 0, 0, 2, 0, 0, 0, 0, 0, 0, 0, 0, 0, 0, 0]
  length := rfl

theorem relative_not_unbuffered : ¬ Unbuffered 64 relativeHeader := by
  intro unbuffered
  have same := congrArg (Option.map UnwindSpec.fdeCount) (unbuffered.same 0 4096)
  revert same
  decide

end DwBpf
