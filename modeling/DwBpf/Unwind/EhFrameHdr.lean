import DwBpf.Dso.Transparency
import DwBpf.Unwind.Libunwind

/-! # The section `.eh_frame_hdr`

The header of the section as DWARF encodes it: four bytes with the version and
three encodings, an encoded pointer, an encoded count, and behind them the binary
search table. What `unwind_spec_ehframe` decodes of it is where the table is and
how many entries it has (`DwBpf.UnwindSpec.ofHeader_of_wellFormed`), except that it
takes a relative pointer of the machine's size for one of four bytes.
-/

namespace DwBpf

section LittleEndian

variable {width : Nat}

theorem toNat_littleEndian_cons_of_lt {bytes : List Byte} (byte : Byte)
    (room : 8 * (bytes.length + 1) ≤ width)
    (below : (littleEndian width bytes).toNat < 2 ^ (8 * bytes.length)) :
    (littleEndian width (byte :: bytes)).toNat =
      byte.toNat + 256 * (littleEndian width bytes).toNat := by
  have wide : 2 ^ 8 * 2 ^ (8 * bytes.length) ≤ 2 ^ width := by
    rw [← Nat.pow_add]
    exact Nat.pow_le_pow_right (by decide) (by omega)
  have narrow : 2 ^ 8 ≤ 2 ^ width := Nat.pow_le_pow_right (by decide) (by omega)
  have small := byte.isLt
  change (littleEndian width bytes <<< 8 ||| byte.setWidth width).toNat = _
  rw [BitVec.toNat_or, BitVec.toNat_shiftLeft, BitVec.toNat_setWidth,
    Nat.mod_eq_of_lt (by omega : byte.toNat < 2 ^ width), Nat.shiftLeft_eq,
    Nat.mod_eq_of_lt (by omega), ← Nat.shiftLeft_eq, ← Nat.shiftLeft_add_eq_or_of_lt small,
    Nat.shiftLeft_eq]
  omega

theorem toNat_littleEndian_lt {bytes : List Byte} (room : 8 * bytes.length ≤ width) :
    (littleEndian width bytes).toNat < 2 ^ (8 * bytes.length) := by
  induction bytes with
  | nil => exact Nat.lt_of_le_of_lt (Nat.le_of_eq BitVec.toNat_zero) (by decide)
  | cons byte bytes ih =>
      rw [List.length_cons] at room
      have rest := ih (by omega)
      have small := byte.isLt
      rw [toNat_littleEndian_cons_of_lt byte room rest, List.length_cons, Nat.mul_add, Nat.pow_add]
      omega

theorem toNat_littleEndian_cons {bytes : List Byte} (byte : Byte)
    (room : 8 * (bytes.length + 1) ≤ width) :
    (littleEndian width (byte :: bytes)).toNat =
      byte.toNat + 256 * (littleEndian width bytes).toNat :=
  toNat_littleEndian_cons_of_lt byte room (toNat_littleEndian_lt (by omega))

/-- Words of as many bytes are the same only if their bytes are. -/
theorem littleEndian_injective {first second : List Byte} (length : first.length = second.length)
    (fits : 8 * first.length ≤ width)
    (same : littleEndian width first = littleEndian width second) : first = second := by
  induction first generalizing second with
  | nil => exact (List.length_eq_zero_iff.mp length.symm).symm
  | cons byte first ih =>
      cases second with
      | nil => cases length
      | cons byte' second =>
          rw [List.length_cons] at fits
          have lengths : first.length = second.length := Nat.succ.inj length
          have value := toNat_littleEndian_cons byte fits
          rw [lengths] at fits
          rw [same, toNat_littleEndian_cons byte' fits] at value
          have small := byte.isLt
          have small' := byte'.isLt
          rw [ih lengths (by omega) (BitVec.eq_of_toNat_eq (by omega)),
            BitVec.eq_of_toNat_eq (by omega : byte.toNat = byte'.toNat)]

end LittleEndian

/-- The size of a value as DWARF encodes it on a machine with 64 bits. There is none
for the encodings of variable size. -/
def encodedSize (encoding : Byte) : Option Nat :=
  if encoding = 0xff then some 0
  else match encoding &&& 0x0f with
    | 0x00#8 => some 8
    | 0x08#8 => some 8
    | 0x02#8 => some 2
    | 0x0a#8 => some 2
    | 0x03#8 => some 4
    | 0x0b#8 => some 4
    | 0x04#8 => some 8
    | 0x0c#8 => some 8
    | _ => none

/-- An encoded number that is relative to nothing. -/
def encodedNumber (encoding : Byte) (size : Nat) (bytes : List Byte) : Int :=
  if encoding &&& 0x0f &&& 0x08 = 0 then (littleEndian (8 * size) bytes).toNat
  else (littleEndian (8 * size) bytes).toInt

/-- The reader knows the size: the value is omitted, is an absolute pointer, or is of
a size that the encoding gives and not the machine. -/
def SizeKnown (encoding : Byte) : Prop := encoding = 0xff ∨ encoding = 0 ∨ encoding &&& 0x07 ≠ 0

/-- A well-formed section of version 1 at an offset of the file. -/
structure EhFrameHdr (file : File) (offset : Nat) where
  ptrEnc : Byte
  countEnc : Byte
  ptrSize : Nat
  countSize : Nat
  count : Nat
  start : (file.bytes.drop offset).take 4 = [1, ptrEnc, countEnc, 0x3b]
  ptrSized : encodedSize ptrEnc = some ptrSize
  countSized : encodedSize countEnc = some countSize
  absolute : countEnc = 0xff ∨ countEnc &&& 0x70 = 0
  counted : encodedNumber countEnc countSize
    ((file.bytes.drop (offset + 4 + ptrSize)).take countSize) = count
  fits : offset + 4 + ptrSize + countSize + 8 * count ≤ file.size

/-- Where the binary search table of the section is in the file. -/
def EhFrameHdr.table {file : File} {offset : Nat} (hdr : EhFrameHdr file offset) : Nat :=
  offset + 4 + hdr.ptrSize + hdr.countSize

section Decode

variable {address value : U64} {bytes : List Byte} {cur next size : Nat} {encoding : Byte}

/-- The size of a value in a format, as the reader takes it. -/
def formatSize (format : Byte) : Option Nat :=
  match format with
  | 0x00#8 => some 4
  | 0x08#8 => some 4
  | 0x03#8 => some 4
  | 0x0b#8 => some 4
  | 0x04#8 => some 8
  | 0x0c#8 => some 8
  | _ => none

/-- The size that the reader takes a value to have, if it can read it. -/
def takenSize (encoding : Byte) : Option Nat :=
  if encoding = 0xff then some 0
  else if encoding = 0 then some 8
  else if encoding &&& 0x70 = 0 ∨ encoding &&& 0x70 = 0x10 then formatSize (encoding &&& 0x0f)
  else none

/-- What a value at `cur` in a header that lies at `address` is relative to. -/
def encodedBase (address : U64) (cur : Nat) (encoding : Byte) : U64 :=
  if encoding &&& 0x70 = 0x10 then address + BitVec.ofNat 64 cur else 0

/-- The value of `size` bytes at `cur`. -/
def decodedValue (address : U64) (bytes : List Byte) (cur : Nat) (encoding : Byte) (size : Nat) :
    U64 :=
  encodedBase address cur encoding +
    BitVec.ofInt 64 (encodedNumber encoding size ((bytes.drop cur).take size))

theorem encodedNumber_unsigned (unsigned : encoding &&& 0x0f &&& 0x08 = 0) :
    encodedNumber encoding size bytes = (littleEndian (8 * size) bytes).toNat := if_pos unsigned

theorem encodedNumber_signed (signed : encoding &&& 0x0f &&& 0x08 ≠ 0) :
    encodedNumber encoding size bytes = (littleEndian (8 * size) bytes).toInt := if_neg signed

theorem dwRead_map (base : U64) (extend : BitVec (8 * size) → U64) :
    (dwRead bytes cur size).map (fun value => (base + extend value, cur + size)) =
      if cur + size ≤ hdrSize then
        some (base + extend (littleEndian (8 * size) ((bytes.drop cur).take size)), cur + size)
      else none := by
  unfold dwRead
  split
  · rfl
  · rfl

theorem setWidth_eq_ofInt {width : Nat} (word : BitVec width) :
    word.setWidth 64 = BitVec.ofInt 64 word.toNat := by
  rw [BitVec.ofInt_natCast, BitVec.ofNat_toNat]

/-- Four bits of which the lower three are zero, and what the reader makes of them. -/
theorem format_of_low (low : encoding &&& 0x07 = 0) :
    (encoding &&& 0x0f = 0 ∧ (encoding ||| 0x03) &&& 0x0f = 0x03) ∨
      (encoding &&& 0x0f = 0x08 ∧ (encoding ||| 0x03) &&& 0x0f = 0x0b) := by
  revert low encoding
  decide

/-- How the reader reads a value in a format. -/
def formatRead (base : U64) (bytes : List Byte) (cur : Nat) (format : Byte) : Option (U64 × Nat) :=
  match format with
  | 0x0b#8 => (dwRead bytes cur 4).map fun value => (base + value.signExtend 64, cur + 4)
  | 0x03#8 => (dwRead bytes cur 4).map fun value => (base + value.setWidth 64, cur + 4)
  | 0x0c#8 => (dwRead bytes cur 8).map fun value => (base + value.setWidth 64, cur + 8)
  | 0x04#8 => (dwRead bytes cur 8).map fun value => (base + value.setWidth 64, cur + 8)
  | _ => none

theorem formatRead_of_none {format : Byte} (none : formatSize format = none) (base : U64)
    (bytes : List Byte) (cur : Nat) : formatRead base bytes cur format = .none := by
  unfold formatRead
  split
  · cases none
  · cases none
  · cases none
  · cases none
  · rfl

theorem formatRead_unsigned4 (base : U64) : formatRead base bytes cur 0x03 =
    if cur + 4 ≤ hdrSize then some (base + BitVec.ofInt 64
      (littleEndian (8 * 4) ((bytes.drop cur).take 4)).toNat, cur + 4) else none := by
  rw [← setWidth_eq_ofInt]
  exact dwRead_map base fun value => value.setWidth 64

theorem formatRead_signed4 (base : U64) : formatRead base bytes cur 0x0b =
    if cur + 4 ≤ hdrSize then some (base + BitVec.ofInt 64
      (littleEndian (8 * 4) ((bytes.drop cur).take 4)).toInt, cur + 4) else none :=
  dwRead_map base fun value => value.signExtend 64

theorem formatRead_unsigned8 (base : U64) : formatRead base bytes cur 0x04 =
    if cur + 8 ≤ hdrSize then some (base + BitVec.ofInt 64
      (littleEndian (8 * 8) ((bytes.drop cur).take 8)).toNat, cur + 8) else none := by
  rw [← setWidth_eq_ofInt]
  exact dwRead_map base fun value => value.setWidth 64

theorem formatRead_signed8 (base : U64) : formatRead base bytes cur 0x0c =
    if cur + 8 ≤ hdrSize then some (base + BitVec.ofInt 64
      (littleEndian (8 * 8) ((bytes.drop cur).take 8)).toInt, cur + 8) else none := by
  have same : BitVec.ofInt 64 (littleEndian (8 * 8) ((bytes.drop cur).take 8)).toInt =
      (littleEndian (8 * 8) ((bytes.drop cur).take 8)).setWidth 64 := by
    rw [BitVec.setWidth_eq]
    exact BitVec.ofInt_toInt
  rw [same]
  exact dwRead_map base fun value => value.setWidth 64

/-- A format that gives the size is one of those that are read, or is refused. -/
theorem format_of_given (given : encoding &&& 0x07 ≠ 0) :
    encoding &&& 0x0f = 0x0b ∨ encoding &&& 0x0f = 0x03 ∨ encoding &&& 0x0f = 0x0c ∨
      encoding &&& 0x0f = 0x04 ∨ formatSize (encoding &&& 0x0f) = none := by
  revert given encoding
  decide

/-- The number in the bytes is read by the format, which is that of four bytes where
none is given. -/
theorem formatRead_eq (base : U64) :
    formatRead base bytes cur
        ((if encoding &&& 0x07 = 0x00 then encoding ||| 0x03 else encoding) &&& 0x0f) =
      (formatSize (encoding &&& 0x0f)).bind fun size => if cur + size ≤ hdrSize then
        some (base + BitVec.ofInt 64 (encodedNumber encoding size ((bytes.drop cur).take size)),
          cur + size) else none := by
  by_cases low : encoding &&& 0x07 = 0
  · rw [if_pos low]
    rcases format_of_low low with ⟨format, taken⟩ | ⟨format, taken⟩
    · have sized : formatSize 0x00 = some 4 := rfl
      rw [taken, formatRead_unsigned4, format, sized, Option.bind_some,
        encodedNumber_unsigned (by rw [format]; decide)]
    · have sized : formatSize 0x08 = some 4 := rfl
      rw [taken, formatRead_signed4, format, sized, Option.bind_some,
        encodedNumber_signed (by rw [format]; decide)]
  · rw [if_neg low]
    rcases format_of_given low with format | format | format | format | none
    · have sized : formatSize 0x0b = some 4 := rfl
      rw [format, formatRead_signed4, sized, Option.bind_some,
        encodedNumber_signed (by rw [format]; decide)]
    · have sized : formatSize 0x03 = some 4 := rfl
      rw [format, formatRead_unsigned4, sized, Option.bind_some,
        encodedNumber_unsigned (by rw [format]; decide)]
    · have sized : formatSize 0x0c = some 8 := rfl
      rw [format, formatRead_signed8, sized, Option.bind_some,
        encodedNumber_signed (by rw [format]; decide)]
    · have sized : formatSize 0x04 = some 8 := rfl
      rw [format, formatRead_unsigned8, sized, Option.bind_some,
        encodedNumber_unsigned (by rw [format]; decide)]
    · rw [none, formatRead_of_none none]
      rfl

/-- A value that is there and not a plain pointer is read by its format, from what it is
relative to. -/
theorem dwReadEncodedValue_of_format (present : encoding ≠ 0xff) (other : encoding ≠ 0) :
    dwReadEncodedValue address bytes cur encoding =
      if encoding &&& 0x70 = 0 ∨ encoding &&& 0x70 = 0x10 then
        formatRead (encodedBase address cur encoding) bytes cur
          ((if encoding &&& 0x07 = 0x00 then encoding ||| 0x03 else encoding) &&& 0x0f)
      else none := by
  rw [dwReadEncodedValue, if_neg present, if_neg other]
  dsimp only
  unfold encodedBase
  generalize (if encoding &&& 0x07 = 0x00 then encoding ||| 0x03 else encoding) = taken
  split
  · rename_i absolute
    rw [absolute, if_pos (.inl rfl), if_neg (by decide)]
    rfl
  · rename_i relative
    rw [relative, if_pos (.inr rfl)]
    rfl
  · rename_i absolute relative
    have unknown : ¬ (encoding &&& 0x70 = 0 ∨ encoding &&& 0x70 = 0x10) :=
      not_or_intro absolute relative
    rw [if_neg unknown]
    rfl

/-- What the reader does with a value: for every encoding, the size that it takes the
value to have, and the value. -/
theorem dwReadEncodedValue_eq (inside : cur ≤ hdrSize) :
    dwReadEncodedValue address bytes cur encoding =
      (takenSize encoding).bind fun size => if cur + size ≤ hdrSize then
        some (decodedValue address bytes cur encoding size, cur + size) else none := by
  unfold takenSize decodedValue
  by_cases omitted : encoding = 0xff
  · subst omitted
    rw [dwReadEncodedValue, if_pos rfl, if_pos rfl, Option.bind_some, Nat.add_zero, if_pos inside]
    rfl
  · rw [if_neg omitted]
    by_cases absolute : encoding = 0
    · subst absolute
      have base : encodedBase address cur 0 = 0 := if_neg (by decide)
      have read := @dwRead_map bytes cur 8 0 fun value => value.setWidth 64
      simp only [zero_add] at read
      rw [dwReadEncodedValue, if_neg omitted, if_pos rfl, read, if_pos rfl, Option.bind_some, base,
        zero_add, setWidth_eq_ofInt, encodedNumber_unsigned (by decide)]
    · rw [dwReadEncodedValue_of_format omitted absolute, if_neg absolute]
      by_cases known : encoding &&& 0x70 = 0 ∨ encoding &&& 0x70 = 0x10
      · rw [if_pos known, if_pos known, formatRead_eq]
      · rw [if_neg known, if_neg known]
        rfl

theorem takenSize_le (taken : takenSize encoding = some size) : size ≤ 8 := by
  have all : ∀ encoding : Byte, ∀ size ∈ takenSize encoding, size ≤ 8 := by decide
  exact all encoding size taken

/-- Where the size is known to the reader, it takes the value to have it. -/
theorem takenSize_of_known (known : SizeKnown encoding) :
    takenSize encoding = none ∨ takenSize encoding = encodedSize encoding := by
  unfold SizeKnown at known
  revert known encoding
  decide

/-- What is decoded of a header: two values, one behind the other. -/
theorem UnwindSpec.ofHeader_eq (address offset : U64) (bytes : List Byte) :
    UnwindSpec.ofHeader address offset bytes =
      (takenSize (bytes.getD 1 0)).bind fun ptrSize =>
        (takenSize (bytes.getD 2 0)).map fun countSize =>
          ⟨BitVec.ofNat 64 (4 + ptrSize + countSize) + offset, offset,
            decodedValue address bytes (4 + ptrSize) (bytes.getD 2 0) countSize⟩ := by
  rw [UnwindSpec.ofHeader, dwReadEncodedValue_eq (by decide)]
  cases ptrTaken : takenSize (bytes.getD 1 0) with
  | none => rfl
  | some ptrSize =>
      have ptrSmall := takenSize_le ptrTaken
      rw [Option.bind_some, if_pos (by unfold hdrSize; omega), Option.bind_some]
      change ((dwReadEncodedValue address bytes (4 + ptrSize) (bytes.getD 2 0)).bind _) = _
      rw [dwReadEncodedValue_eq (by unfold hdrSize; omega)]
      cases countTaken : takenSize (bytes.getD 2 0) with
      | none => rfl
      | some countSize =>
          have countSmall := takenSize_le countTaken
          rw [Option.bind_some, if_pos (by unfold hdrSize; omega)]
          rfl

end Decode

theorem EhFrameHdr.getD_take {file : File} {offset : Nat} (hdr : EhFrameHdr file offset)
    (index : Nat) (small : index < 4) :
    ((file.bytes.drop offset).take hdrSize).getD index 0 =
      [1, hdr.ptrEnc, hdr.countEnc, 0x3b].getD index 0 := by
  rw [← hdr.start, List.getD_eq_getElem?_getD, List.getD_eq_getElem?_getD,
    List.getElem?_take_of_lt (Nat.lt_trans small (by decide)), List.getElem?_take_of_lt small]

/-- What is decoded of a well-formed section whose encodings have a known size is where
the section is, where its table is and how long it is. -/
theorem UnwindSpec.ofHeader_of_wellFormed {file : File} {offset address : U64} {spec : UnwindSpec}
    (hdr : EhFrameHdr file offset.toNat) (ptrKnown : SizeKnown hdr.ptrEnc)
    (countKnown : SizeKnown hdr.countEnc)
    (decoded : ofHeader address offset ((file.bytes.drop offset.toNat).take hdrSize) = some spec) :
    spec.segbase = offset ∧ spec.tableData.toNat = hdr.table ∧ spec.fdeCount.toNat = hdr.count := by
  have ptrEnc : ((file.bytes.drop offset.toNat).take hdrSize).getD 1 0 = hdr.ptrEnc :=
    hdr.getD_take 1 (by decide)
  have countEnc : ((file.bytes.drop offset.toNat).take hdrSize).getD 2 0 = hdr.countEnc :=
    hdr.getD_take 2 (by decide)
  have fits := hdr.fits
  have bound := file.length_lt
  rw [File.size] at fits
  rw [ofHeader_eq, ptrEnc, countEnc] at decoded
  obtain ⟨ptrSize, ptrTaken, rest⟩ := Option.bind_eq_some_iff.mp decoded
  obtain ⟨countSize, countTaken, rfl⟩ := Option.map_eq_some_iff.mp rest
  obtain rfl : ptrSize = hdr.ptrSize := by
    rcases takenSize_of_known ptrKnown with none | same
    · cases ptrTaken.symm.trans none
    · exact Option.some.inj (ptrTaken.symm.trans (same.trans hdr.ptrSized))
  obtain rfl : countSize = hdr.countSize := by
    rcases takenSize_of_known countKnown with none | same
    · cases countTaken.symm.trans none
    · exact Option.some.inj (countTaken.symm.trans (same.trans hdr.countSized))
  refine ⟨rfl, ?_, ?_⟩
  · change (BitVec.ofNat 64 (4 + hdr.ptrSize + hdr.countSize) + offset).toNat = _
    rw [BitVec.toNat_add, BitVec.toNat_ofNat, EhFrameHdr.table]
    omega
  · have ptrSmall := takenSize_le ptrTaken
    have countSmall := takenSize_le countTaken
    have base : encodedBase address (4 + hdr.ptrSize) hdr.countEnc = 0 := by
      apply if_neg
      rcases hdr.absolute with omitted | absolute
      · rw [omitted]
        decide
      · rw [absolute]
        decide
    have bytes : (((file.bytes.drop offset.toNat).take hdrSize).drop (4 + hdr.ptrSize)).take
        hdr.countSize = (file.bytes.drop (offset.toNat + 4 + hdr.ptrSize)).take hdr.countSize := by
      rw [List.drop_take, List.take_take, List.drop_drop,
        Nat.min_eq_left (by unfold hdrSize; omega), Nat.add_assoc offset.toNat]
    change (decodedValue address _ (4 + hdr.ptrSize) hdr.countEnc hdr.countSize).toNat = _
    rw [decodedValue, base, zero_add, bytes, hdr.counted, BitVec.ofInt_natCast, BitVec.toNat_ofNat]
    exact Nat.mod_eq_of_lt (by omega)

section Kept

variable {os : Os} {data next : DsoData} {offset : U64} {size count : Int} {bytes : List Byte}

/-- No read changes the offset. -/
theorem DsoData.readOffset_hdrOffset {size : Nat}
    (ran : data.readOffset os offset size = .ok (count, bytes, next)) :
    next.ehFrameHdrOffset = data.ehFrameHdrOffset := by
  refine readOffset_invariant (fun other => other.ehFrameHdrOffset = data.ehFrameHdrOffset) ?_ ?_
    rfl ran
  · intro turn before offset size ret bytes after same turned
    obtain ⟨_, _, _, _, _, rfl⟩ := dsoCacheRead_frame turned
    exact same
  · intro before known after same sized
    obtain ⟨_, _, _, rfl⟩ := dataFileSize_frame sized
    exact same

end Kept

/-- The data are those of the file, and the offset of the section is kept if it is known. -/
structure Consistent (file : File) (offset : U64) (data : DsoData) : Prop extends
    Serving file data where
  kept : data.ehFrameHdrOffset = 0 ∨ data.ehFrameHdrOffset = offset

section Consistent

variable {file : File} {offset position : U64} {os : Os} {data next : DsoData} {elf : ElfAnswers}

theorem consistent_new (file : File) (offset : U64) : Consistent file offset .new :=
  ⟨⟨cached_new file, by decide⟩, .inl rfl⟩

theorem DsoData.readOffset_of_consistent (serves : os.Serves file)
    (consistent : Consistent file offset data) (position : U64) {size : Nat}
    (small : size < 2 ^ 63) :
    ∃ next, data.readOffset os position size =
      .ok ((file.read position size).1, (file.read position size).2, next) ∧
      Consistent file offset next := by
  obtain ⟨next, read, serving⟩ :=
    readOffset_of_cached serves consistent.toServing position small
  refine ⟨next, read, serving, ?_⟩
  rw [readOffset_hdrOffset read]
  exact consistent.kept

/-- The offset of the section is looked up once, and is that of the file. -/
theorem ehFrameHdrOffset_of_consistent (serves : os.Serves file)
    (consistent : Consistent file offset data) (answered : elf.sectionOffset = offset) :
    ∃ next, ehFrameHdrOffset os elf data = .ok (some offset, next) ∧
      Consistent file offset next := by
  unfold ehFrameHdrOffset
  by_cases known : data.ehFrameHdrOffset = 0
  · obtain ⟨opened, isOpened, serving, present⟩ :=
      tryToOpenDso_of_serves serves consistent.toServing
    rw [if_neg (not_not_intro known), DsoData.getFd, if_neg consistent.status, isOpened]
    dsimp only [ok_bind, pure_eq_ok]
    rw [if_neg (Option.isSome_iff_ne_none.mp present), answered]
    exact ⟨_, rfl, ⟨serving.congr rfl rfl, serving.status⟩, .inr rfl⟩
  · rw [if_pos known, consistent.kept.resolve_left known]
    exact ⟨data, rfl, consistent⟩

/-- What is found out about a dso is decoded from the header of the section in its file. -/
theorem readUnwindSpecEhFrame_of_consistent (serves : os.Serves file)
    (consistent : Consistent file offset data) (answered : elf.sectionOffset = offset) :
    ∃ next, Consistent file offset next ∧ readUnwindSpecEhFrame os elf data =
      .ok (if offset ≠ 0 ∧ offset.toNat + hdrSize ≤ file.size then
          UnwindSpec.ofHeader elf.address offset ((file.bytes.drop offset.toNat).take hdrSize)
        else none, next) := by
  obtain ⟨found, kept, foundConsistent⟩ :=
    ehFrameHdrOffset_of_consistent serves consistent answered
  rw [readUnwindSpecEhFrame, kept, ok_bind]
  dsimp only
  by_cases absent : offset = 0
  · rw [if_pos absent, if_neg (fun present => present.1 absent)]
    exact ⟨found, foundConsistent, rfl⟩
  · obtain ⟨next, read, nextConsistent⟩ :=
      DsoData.readOffset_of_consistent serves foundConsistent offset (by decide : hdrSize < 2 ^ 63)
    refine ⟨next, nextConsistent, ?_⟩
    rw [if_neg absent, unwindSpecEhframe, DsoData.readBytes, read]
    have whole := file.read_fst_eq_iff offset (by decide : 1 ≤ hdrSize)
    dsimp only [ok_bind, pure_eq_ok]
    by_cases within : offset.toNat + hdrSize ≤ file.size
    · rw [if_pos (whole.mpr within), if_pos ⟨absent, within⟩, File.read_of_within within]
    · rw [if_neg (fun count => within (whole.mp count)), if_neg (fun both => within both.2)]

end Consistent

end DwBpf
