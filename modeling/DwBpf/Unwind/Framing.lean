import DwBpf.Unwind.EhFrameHdr

/-! # The framing of the header

The sizes of the two encoded values in `.eh_frame_hdr` decide where the table is.
The reader knows them unless one is a pointer of the machine's size that is not
plainly absolute: it takes such a value for one of four bytes
(`DwBpf.framed_iff`).
-/

namespace DwBpf

/-- The bytes of `struct eh_frame_hdr`. -/
structure Header where
  bytes : List Byte
  length : bytes.length = hdrSize

namespace Header

def ptrEnc (hdr : Header) : Byte := hdr.bytes.getD 1 0

def countEnc (hdr : Header) : Byte := hdr.bytes.getD 2 0

end Header

/-- The encoding is omitted, or of a pointer's, four or eight bytes and relative to
nothing or to its own address. -/
def Supported (encoding : Byte) : Prop :=
  encoding = 0xff ∨ (encoding &&& 0x70 = 0 ∨ encoding &&& 0x70 = 0x10) ∧
    encoding &&& 0x0f ∈ [0x00#8, 0x08#8, 0x03#8, 0x0b#8, 0x04#8, 0x0c#8]

/-- What the format says about a header at an offset of the file: the sizes of the two
values, where the table is, and the count if it is relative to nothing. Besides the two
encodings only the sixteen bytes behind the first four matter, and a header with
supported encodings is decoded. -/
structure Framed (address offset : U64) (hdr : Header) : Prop where
  frames : ∀ spec, UnwindSpec.ofHeader address offset hdr.bytes = some spec →
    ∃ ptrSize countSize, encodedSize hdr.ptrEnc = some ptrSize ∧
      encodedSize hdr.countEnc = some countSize ∧ spec.segbase = offset ∧
      spec.tableData = BitVec.ofNat 64 (4 + ptrSize + countSize) + offset ∧
      (hdr.countEnc &&& 0x70 = 0 → spec.fdeCount = BitVec.ofInt 64
        (encodedNumber hdr.countEnc countSize ((hdr.bytes.drop (4 + ptrSize)).take countSize)))
  confined : ∀ bytes, bytes.getD 1 0 = hdr.ptrEnc → bytes.getD 2 0 = hdr.countEnc →
    (bytes.drop 4).take 16 = (hdr.bytes.drop 4).take 16 →
    UnwindSpec.ofHeader address offset bytes = UnwindSpec.ofHeader address offset hdr.bytes
  returns : Supported hdr.ptrEnc → Supported hdr.countEnc →
    ∃ spec, UnwindSpec.ofHeader address offset hdr.bytes = some spec

section Sizes

variable {encoding : Byte}

theorem takenSize_of_not_supported (refused : ¬ Supported encoding) :
    takenSize encoding = none := by
  unfold Supported at refused
  revert refused encoding
  decide

/-- A supported encoding has a size, and the reader takes a value of it to have this
size or, where it does not know it, four bytes instead of eight. -/
theorem sizes_of_supported (supported : Supported encoding) :
    ∃ size taken, encodedSize encoding = some size ∧ takenSize encoding = some taken ∧
      (SizeKnown encoding ∧ taken = size ∨ ¬ SizeKnown encoding ∧ taken + 4 = size) := by
  have all : ∀ encoding : Byte, Supported encoding →
      (SizeKnown encoding ∧ takenSize encoding = encodedSize encoding ∧
          (takenSize encoding).isSome = true) ∨
        (¬ SizeKnown encoding ∧ takenSize encoding = some 4 ∧ encodedSize encoding = some 8) := by
    unfold Supported SizeKnown
    decide
  rcases all encoding supported with ⟨known, same, present⟩ | ⟨unknown, taken, sized⟩
  · obtain ⟨size, taken⟩ := Option.isSome_iff_exists.mp present
    exact ⟨size, size, same.symm.trans taken, taken, .inl ⟨known, rfl⟩⟩
  · exact ⟨8, 4, sized, taken, .inr ⟨unknown, rfl⟩⟩

theorem taken_of_supported (supported : Supported encoding) :
    ∃ taken, takenSize encoding = some taken := by
  obtain ⟨_, taken, _, isTaken, _⟩ := sizes_of_supported supported
  exact ⟨taken, isTaken⟩

theorem encodedBase_of_absolute {address : U64} {cur : Nat} (absolute : encoding &&& 0x70 = 0) :
    encodedBase address cur encoding = 0 := by
  apply if_neg
  rw [absolute]
  decide

end Sizes

section Bytes

variable {address offset : U64} {bytes : List Byte}

/-- A value in the sixteen bytes is decoded from these. -/
theorem decodedValue_of_variable (ptrSize countSize : Nat) (encoding : Byte)
    (inside : ptrSize + countSize ≤ 16) :
    decodedValue address bytes (4 + ptrSize) encoding countSize =
      encodedBase address (4 + ptrSize) encoding + BitVec.ofInt 64 (encodedNumber encoding countSize
        ((((bytes.drop 4).take 16).drop ptrSize).take countSize)) := by
  rw [decodedValue, List.drop_take, List.take_take, List.drop_drop,
    Nat.min_eq_left (by omega : countSize ≤ 16 - ptrSize)]

/-- The decoding reads the two encodings and the sixteen bytes, and nothing else. -/
theorem UnwindSpec.ofHeader_congr {other : List Byte} (ptrEnc : other.getD 1 0 = bytes.getD 1 0)
    (countEnc : other.getD 2 0 = bytes.getD 2 0)
    (rest : (other.drop 4).take 16 = (bytes.drop 4).take 16) :
    ofHeader address offset other = ofHeader address offset bytes := by
  rw [ofHeader_eq, ofHeader_eq, ptrEnc, countEnc]
  cases ptrTaken : takenSize (bytes.getD 1 0) with
  | none => rfl
  | some ptrSize =>
      cases countTaken : takenSize (bytes.getD 2 0) with
      | none => rfl
      | some countSize =>
          have ptrSmall := takenSize_le ptrTaken
          have countSmall := takenSize_le countTaken
          have inside : ptrSize + countSize ≤ 16 := by omega
          simp only [Option.bind_some, Option.map_some]
          rw [decodedValue_of_variable _ _ _ inside, decodedValue_of_variable _ _ _ inside,
            rest]

end Bytes

section Framing

variable {address offset : U64} {hdr : Header}

theorem Header.ofHeader_of_taken {ptrTaken countTaken : Nat}
    (ptr : takenSize hdr.ptrEnc = some ptrTaken)
    (count : takenSize hdr.countEnc = some countTaken) :
    UnwindSpec.ofHeader address offset hdr.bytes =
      some ⟨BitVec.ofNat 64 (4 + ptrTaken + countTaken) + offset, offset,
        decodedValue address hdr.bytes (4 + ptrTaken) hdr.countEnc countTaken⟩ := by
  unfold Header.ptrEnc at ptr
  unfold Header.countEnc at count ⊢
  rw [UnwindSpec.ofHeader_eq, ptr, count]
  rfl

/-- A header is decoded only if both encodings are supported. -/
theorem Header.supported_of_ofHeader {spec : UnwindSpec}
    (decoded : UnwindSpec.ofHeader address offset hdr.bytes = some spec) :
    Supported hdr.ptrEnc ∧ Supported hdr.countEnc := by
  rw [UnwindSpec.ofHeader_eq] at decoded
  obtain ⟨ptrSize, ptrTaken, rest⟩ := Option.bind_eq_some_iff.mp decoded
  obtain ⟨countSize, countTaken, -⟩ := Option.map_eq_some_iff.mp rest
  constructor
  · by_contra refused
    cases ptrTaken.symm.trans (takenSize_of_not_supported refused)
  · by_contra refused
    cases countTaken.symm.trans (takenSize_of_not_supported refused)

/-- Where the sizes are known, the table and the count are where the format has them. -/
theorem Header.frames_of_known (ptrKnown : SizeKnown hdr.ptrEnc)
    (countKnown : SizeKnown hdr.countEnc) (ptrSupported : Supported hdr.ptrEnc)
    (countSupported : Supported hdr.countEnc) :
    ∃ ptrSize countSize, encodedSize hdr.ptrEnc = some ptrSize ∧
      encodedSize hdr.countEnc = some countSize ∧
      UnwindSpec.ofHeader address offset hdr.bytes =
        some ⟨BitVec.ofNat 64 (4 + ptrSize + countSize) + offset, offset,
          decodedValue address hdr.bytes (4 + ptrSize) hdr.countEnc countSize⟩ := by
  obtain ⟨ptrSize, ptrTaken, ptrSized, isPtrTaken, ptr⟩ := sizes_of_supported ptrSupported
  obtain ⟨countSize, countTaken, countSized, isCountTaken, count⟩ :=
    sizes_of_supported countSupported
  rcases ptr with ⟨-, rfl⟩ | ⟨unknown, -⟩
  · rcases count with ⟨-, rfl⟩ | ⟨unknown, -⟩
    · exact ⟨_, _, ptrSized, countSized, ofHeader_of_taken isPtrTaken isCountTaken⟩
    · exact absurd countKnown unknown
  · exact absurd ptrKnown unknown

/-- If the table is where the format has it, the reader knows both sizes: one that it does
not know is too small, and nothing makes up for it. -/
theorem Header.known_of_frames (framed : Framed address offset hdr)
    (ptrSupported : Supported hdr.ptrEnc) (countSupported : Supported hdr.countEnc) :
    SizeKnown hdr.ptrEnc ∧ SizeKnown hdr.countEnc := by
  obtain ⟨ptrSize, ptrTaken, ptrSized, isPtrTaken, ptr⟩ := sizes_of_supported ptrSupported
  obtain ⟨countSize, countTaken, countSized, isCountTaken, count⟩ :=
    sizes_of_supported countSupported
  obtain ⟨ptrSize', countSize', ptrSized', countSized', -, table, -⟩ :=
    framed.frames _ (ofHeader_of_taken isPtrTaken isCountTaken)
  have ptrSmall := takenSize_le isPtrTaken
  have countSmall := takenSize_le isCountTaken
  cases ptrSized.symm.trans ptrSized'
  cases countSized.symm.trans countSized'
  have sums : 4 + ptrTaken + countTaken = 4 + ptrSize + countSize := by
    have sum := congrArg BitVec.toNat ((BitVec.add_left_inj _).mp table)
    rw [BitVec.toNat_ofNat, BitVec.toNat_ofNat] at sum
    omega
  rcases ptr with ⟨ptrKnown, rfl⟩ | ⟨-, fewer⟩
  · rcases count with ⟨countKnown, rfl⟩ | ⟨-, fewer⟩
    · exact ⟨ptrKnown, countKnown⟩
    · omega
  · rcases count with ⟨-, rfl⟩ | ⟨-, fewer'⟩
    · omega
    · omega

end Framing

/-- The header is decoded as the format frames it, unless the reader supports both
encodings and does not know the size of one. -/
theorem framed_iff (address offset : U64) (hdr : Header) :
    Framed address offset hdr ↔
      (Supported hdr.ptrEnc → Supported hdr.countEnc →
        SizeKnown hdr.ptrEnc ∧ SizeKnown hdr.countEnc) := by
  constructor
  · exact Header.known_of_frames
  · intro known
    refine ⟨fun spec decoded => ?_, fun bytes => UnwindSpec.ofHeader_congr, ?_⟩
    · obtain ⟨ptrSupported, countSupported⟩ := Header.supported_of_ofHeader decoded
      obtain ⟨ptrKnown, countKnown⟩ := known ptrSupported countSupported
      obtain ⟨ptrSize, countSize, ptrSized, countSized, frames⟩ :=
        Header.frames_of_known ptrKnown countKnown ptrSupported countSupported
      cases decoded.symm.trans frames
      refine ⟨ptrSize, countSize, ptrSized, countSized, rfl, rfl, fun absolute => ?_⟩
      change decodedValue _ _ _ _ _ = _
      rw [decodedValue, encodedBase_of_absolute absolute, zero_add]
    · intro ptrSupported countSupported
      obtain ⟨ptrTaken, isPtrTaken⟩ := taken_of_supported ptrSupported
      obtain ⟨countTaken, isCountTaken⟩ := taken_of_supported countSupported
      exact ⟨_, Header.ofHeader_of_taken isPtrTaken isCountTaken⟩

/-- A header whose pointer is of the machine's size and relative to its own address, and
whose count is one of four bytes. -/
def nativeHeader : Header where
  bytes := [1, 0x10, 0x03, 0x3b, 0x40, 0, 0, 0, 0, 0, 0, 0, 2, 0, 0, 0, 0, 0, 0, 0]
  length := rfl

theorem native_not_framed : ¬ Framed 0 64 nativeHeader := by
  intro framed
  obtain ⟨ptrSize, countSize, ptrSized, countSized, -, table, -⟩ := framed.frames _ rfl
  cases ptrSized
  cases countSized
  revert table
  decide

end DwBpf
