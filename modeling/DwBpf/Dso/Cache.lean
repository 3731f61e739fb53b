import DwBpf.Dso.Frames
import Mathlib.Data.List.Pairwise

/-! # The cache of an unchanging file

The chunks of one file, as the cache of its dso holds them: each at its place,
one for an offset, in the order of their offsets (`DwBpf.Cached`). Lookups,
insertions and copies on such a cache, for this reader and for others.
-/

namespace DwBpf

theorem chunkOffset_eq_shift (offset : U64) : chunkOffset offset = (offset >>> 12) <<< 12 := by
  apply BitVec.eq_of_getLsbD_eq
  intro index below
  have mask : (BitVec.ofNat 64 (dataCacheSize - 1)).getLsbD index = decide (index < 12) := by
    rw [BitVec.getLsbD_ofNat, show dataCacheSize - 1 = 2 ^ 12 - 1 from rfl,
      Nat.testBit_two_pow_sub_one]
    simp [below]
  simp only [chunkOffset, BitVec.getLsbD_and, BitVec.getLsbD_not, mask, below,
    BitVec.getLsbD_shiftLeft, BitVec.getLsbD_ushiftRight]
  by_cases low : index < 12
  · simp [low]
  · simp [low, show 12 + (index - 12) = index by omega]

/-- The chunk around an offset begins at the multiple of the chunk size below it. -/
theorem toNat_chunkOffset (offset : U64) :
    (chunkOffset offset).toNat = offset.toNat - offset.toNat % 4096 := by
  rw [chunkOffset_eq_shift, BitVec.toNat_shiftLeft, BitVec.toNat_ushiftRight,
    Nat.shiftRight_eq_div_pow, Nat.shiftLeft_eq]
  have := offset.isLt
  omega

/-- How far an offset is into its chunk. -/
theorem toNat_sub_chunkOffset (offset : U64) :
    (offset - chunkOffset offset).toNat = offset.toNat % 4096 := by
  have start := toNat_chunkOffset offset
  have bound := offset.isLt
  rw [BitVec.toNat_sub]
  omega

/-- A file with fixed contents. A file's size is a non-negative `off_t`. -/
structure File where
  bytes : List Byte
  length_lt : bytes.length < 2 ^ 63

namespace File

def size (file : File) : Nat := file.bytes.length

/-- The bytes one `pread` of a whole chunk delivers. -/
def chunk (file : File) (offset : Nat) : ChunkBytes where
  bytes := (file.bytes.drop offset).take dataCacheSize
  length_le := by simp

/-- What a read of the file is for: the bytes at an offset, up to the end of the
file, and `-1` beyond the end and where the range would wrap around. -/
def read (file : File) (offset : U64) (size : Nat) : Int × List Byte :=
  if file.size < offset.toNat ∨ 2 ^ 64 ≤ offset.toNat + size then (-1, [])
  else ((min size (file.size - offset.toNat) : Nat), (file.bytes.drop offset.toNat).take size)

theorem read_of_within {file : File} {offset : U64} {size : Nat}
    (within : offset.toNat + size ≤ file.size) :
    file.read offset size = ((size : Int), (file.bytes.drop offset.toNat).take size) := by
  have := file.length_lt
  rw [read, if_neg (by rw [File.size] at within ⊢; omega), Nat.min_eq_left (by omega)]

/-- A read delivers all of its bytes exactly when they are bytes of the file. -/
theorem read_fst_eq_iff (file : File) (offset : U64) {size : Nat} (positive : 1 ≤ size) :
    (file.read offset size).1 = size ↔ offset.toNat + size ≤ file.size := by
  constructor
  · intro count
    rw [read] at count
    split at count
    · dsimp only at count
      omega
    · dsimp only at count
      omega
  · intro within
    rw [read_of_within within]

/-- The bytes left of the chunk around an offset, up to the requested size. -/
def advance (file : File) (offset : Nat) (size : Nat) : Nat :=
  min size (min (4096 - offset % 4096) (file.size - offset))

end File

/-- The chunk is a non-empty one of the file's, at its place. -/
structure DsoCache.Holds (cache : DsoCache) (file : File) : Prop where
  aligned : cache.offset.toNat % 4096 = 0
  inside : cache.offset.toNat < file.size
  content : cache.toChunkBytes = file.chunk cache.offset.toNat

/-- The chunks were read off the file correctly. -/
def OtherRead.Correct (other : OtherRead) (file : File) : Prop :=
  other.offset.toNat % 4096 = 0 ∧ other.offset.toNat < file.size ∧
    other.toChunkBytes = file.chunk other.offset.toNat

/-- The cache holds chunks of the file, sorted by offset, and the size read off
the file is its own. -/
structure Cached (file : File) (data : DsoData) : Prop where
  holds : ∀ cache ∈ data.cache.toList, cache.Holds file
  sorted : data.cache.toList.Pairwise fun first second => first.offset.toNat < second.offset.toNat
  fileSize : data.fileSize = 0 ∨ data.fileSize = BitVec.ofNat 64 file.size

theorem cached_new (file : File) : Cached file DsoData.new where
  holds := by simp [DsoData.new]
  sorted := .nil
  fileSize := .inl rfl

/-- The cache and the file's size are all that counts. -/
theorem Cached.congr {file : File} {data other : DsoData} (cached : Cached file data)
    (cache : other.cache = data.cache) (fileSize : other.fileSize = data.fileSize) :
    Cached file other :=
  ⟨cache ▸ cached.holds, cache ▸ cached.sorted, fileSize ▸ cached.fileSize⟩

variable {file : File} {data : DsoData} {offset : U64}

/-- The chunk begins at a multiple of the chunk size that is a non-negative `off_t`. -/
structure DsoCache.Aligned (cache : DsoCache) : Prop where
  aligned : cache.offset.toNat % 4096 = 0
  small : cache.offset.toNat < 2 ^ 63

/-- The chunks are aligned and sorted by offset, whatever is in them. -/
structure Gridded (data : DsoData) : Prop where
  aligned : ∀ cache ∈ data.cache.toList, cache.Aligned
  sorted : data.cache.toList.Pairwise fun first second => first.offset.toNat < second.offset.toNat

theorem gridded_new : Gridded DsoData.new := ⟨by simp [DsoData.new], .nil⟩

theorem Gridded.congr {other : DsoData} (gridded : Gridded data)
    (cache : other.cache = data.cache) : Gridded other :=
  ⟨cache ▸ gridded.aligned, cache ▸ gridded.sorted⟩

/-- There is one chunk for an offset. -/
theorem Gridded.eq_of_offset {first second : DsoCache} (gridded : Gridded data)
    (isFirst : first ∈ data.cache.toList) (isSecond : second ∈ data.cache.toList)
    (same : first.offset = second.offset) : first = second := by
  have apart : data.cache.toList.Pairwise fun first second =>
      first.offset.toNat ≠ second.offset.toNat := gridded.sorted.imp Nat.ne_of_lt
  have symm : Std.Symm fun first second : DsoCache =>
      first.offset.toNat ≠ second.offset.toNat := ⟨fun _ _ => Ne.symm⟩
  by_contra differ
  exact apart.forall isFirst isSecond differ (congrArg BitVec.toNat same)

theorem DsoCache.Holds.isAligned {cache : DsoCache} (holds : cache.Holds file) : cache.Aligned :=
  ⟨holds.aligned, Nat.lt_trans holds.inside file.length_lt⟩

theorem Cached.gridded (cached : Cached file data) : Gridded data :=
  ⟨fun cache member => (cached.holds cache member).isAligned, cached.sorted⟩

namespace DsoCache

/-- On aligned chunks the descents compare chunk offsets. -/
theorem steer_eq_compare {cache : DsoCache} (isAligned : cache.Aligned) (offset : U64) :
    steer offset cache = compare (chunkOffset offset).toNat cache.offset.toNat := by
  have aligned := isAligned.aligned
  have inside := isAligned.small
  have last : (cache.offset + BitVec.ofNat 64 dataCacheSize).toNat = cache.offset.toNat + 4096 := by
    rw [BitVec.toNat_add, show (BitVec.ofNat 64 dataCacheSize).toNat = 4096 from rfl]
    omega
  have start := toNat_chunkOffset offset
  simp only [steer, BitVec.lt_def, BitVec.le_def, last]
  split
  · rw [eq_comm, compare_lt_iff_lt]
    omega
  · split
    · rw [eq_comm, compare_gt_iff_gt]
      omega
    · rw [eq_comm, compare_eq_iff_eq]
      omega

theorem find_of_gridded (gridded : Gridded data) {cache : DsoCache}
    (found : find data offset = some cache) :
    cache ∈ data.cache.toList ∧ cache.offset = chunkOffset offset := by
  obtain ⟨member, stopped⟩ := Tree.find?_eq_some found
  rw [steer_eq_compare (gridded.aligned cache member), compare_eq_iff_eq] at stopped
  exact ⟨member, (BitVec.eq_of_toNat_eq stopped).symm⟩

theorem find_eq_some (cached : Cached file data) {cache : DsoCache}
    (found : find data offset = some cache) :
    cache.Holds file ∧ cache.offset = chunkOffset offset := by
  obtain ⟨member, around⟩ := find_of_gridded cached.gridded found
  exact ⟨cached.holds cache member, around⟩

/-- A chunk in the cache is found from every offset it is around. -/
theorem find_isSome (gridded : Gridded data) {cache : DsoCache}
    (member : cache ∈ data.cache.toList) (around : cache.offset = chunkOffset offset) :
    (find data offset).isSome := by
  have agree : ∀ stored ∈ data.cache.toList, steer offset stored =
      compare (chunkOffset offset).toNat stored.offset.toNat :=
    fun stored inside => steer_eq_compare (gridded.aligned stored inside) offset
  have steered := Tree.steered_of_sorted agree (gridded.sorted.imp le_of_lt)
  rw [Option.isSome_iff_ne_none]
  intro missed
  apply (Tree.find?_eq_none steered).mp missed cache member
  rw [agree cache member, compare_eq_iff_eq, around]

/-- Inserting an aligned chunk finds the one already there or links it. -/
theorem insert_of_gridded (gridded : Gridded data) {new : DsoCache} (isAligned : new.Aligned) :
    (∃ old ∈ data.cache.toList, insert data new = (some old, data) ∧ old.offset = new.offset) ∨
      ∃ tree, insert data new = (none, { data with cache := tree }) ∧
        tree.toList.Perm (new :: data.cache.toList) ∧ Gridded { data with cache := tree } := by
  have aligned : chunkOffset new.offset = new.offset := by
    have start := toNat_chunkOffset new.offset
    rw [isAligned.aligned] at start
    exact BitVec.eq_of_toNat_eq start
  have agree : ∀ stored ∈ data.cache.toList, steer new.offset stored =
      compare new.offset.toNat stored.offset.toNat := by
    intro stored member
    rw [steer_eq_compare (gridded.aligned stored member), aligned]
  unfold insert
  cases located : data.cache.locate (steer new.offset) [] with
  | inl old =>
      obtain ⟨member, stopped⟩ := Tree.locate_inl located
      rw [agree old member, compare_eq_iff_eq] at stopped
      exact .inl ⟨old, member, rfl, (BitVec.eq_of_toNat_eq stopped).symm⟩
  | inr leaf =>
      have linked := Tree.toList_link_of_locate new located
      refine .inr ⟨Tree.link leaf new, rfl, linked, ?_, ?_⟩
      · intro cache member
        rcases List.mem_cons.mp (linked.mem_iff.mp member) with rfl | stored
        · exact isAligned
        · exact gridded.aligned cache stored
      · exact Tree.sorted_link agree gridded.sorted located

/-- Inserting a chunk of the file finds the one already there or links it. -/
theorem insert_of_cached (cached : Cached file data) {new : DsoCache} (fresh : new.Holds file) :
    (∃ old ∈ data.cache.toList, insert data new = (some old, data) ∧ old.Holds file ∧
        old.offset = new.offset) ∨
      ∃ tree, insert data new = (none, { data with cache := tree }) ∧ new ∈ tree.toList ∧
        Cached file { data with cache := tree } := by
  rcases insert_of_gridded cached.gridded fresh.isAligned with
    ⟨old, member, inserted, same⟩ | ⟨tree, inserted, linked, gridded⟩
  · exact .inl ⟨old, member, inserted, cached.holds old member, same⟩
  · refine .inr ⟨tree, inserted, linked.mem_iff.mpr (by simp), ?_, gridded.sorted, cached.fileSize⟩
    intro cache member
    rcases List.mem_cons.mp (linked.mem_iff.mp member) with rfl | stored
    · exact fresh
    · exact cached.holds cache stored

theorem cached_insertOther (cached : Cached file data) {other : OtherRead}
    (correct : other.Correct file) : Cached file (insertOther data other) := by
  have counted : Cached file { data with allocated := data.allocated + 1 } := cached.congr rfl rfl
  have holds : Holds { other.toChunkBytes with id := data.allocated, offset := other.offset }
      file := ⟨correct.1, correct.2.1, correct.2.2⟩
  unfold insertOther
  rcases insert_of_cached counted holds with ⟨old, -, inserted, -⟩ | ⟨tree, inserted, -, linked⟩
  · simp only [inserted]
    exact counted.congr rfl rfl
  · simp only [inserted]
    exact linked

/-- What other readers link meanwhile leaves a cache of the file's chunks. -/
theorem cached_others (cached : Cached file data) (others : List OtherRead)
    (correct : ∀ other ∈ others, other.Correct file) :
    Cached file (others.foldl insertOther data) := by
  induction others generalizing data with
  | nil => exact cached
  | cons other others ih =>
      exact ih (cached_insertOther cached (correct other (by simp)))
        fun later member => correct later (by simp [member])

/-- Copying from the chunk around an offset within the file. The two lengths
subtracted do not wrap: the offset into the chunk is at most the chunk's size,
also where the offset is the end of the file. -/
theorem memcpy_of_holds {cache : DsoCache} (holds : cache.Holds file)
    (around : cache.offset = chunkOffset offset) (within : offset.toNat ≤ file.size)
    {size : Nat} (small : size < 2 ^ 63) :
    cache.memcpy offset (BitVec.ofNat 64 size) =
      (BitVec.ofNat 64 (file.advance offset.toNat size),
        (file.bytes.drop offset.toNat).take (file.advance offset.toNat size)) := by
  have start := toNat_chunkOffset offset
  rw [← around] at start
  have bound := file.length_lt
  have length : cache.bytes.length = min 4096 (file.size - cache.offset.toNat) := by
    rw [show cache.bytes = (file.chunk cache.offset.toNat).bytes from
      congrArg ChunkBytes.bytes holds.content]
    simp [File.chunk, File.size]
  have into : (offset - cache.offset).toNat = offset.toNat % 4096 := by
    rw [around, toNat_sub_chunkOffset]
  have left : (cache.size - (offset - cache.offset)).toNat =
      min (4096 - offset.toNat % 4096) (file.size - offset.toNat) := by
    rw [BitVec.toNat_sub, into, DsoCache.size, BitVec.toNat_ofNat, length]
    unfold File.size at *
    omega
  have requested : (BitVec.ofNat 64 size).toNat = size := by
    rw [BitVec.toNat_ofNat]
    omega
  have copied : (if cache.size - (offset - cache.offset) < BitVec.ofNat 64 size
      then cache.size - (offset - cache.offset) else BitVec.ofNat 64 size) =
      BitVec.ofNat 64 (file.advance offset.toNat size) := by
    apply BitVec.eq_of_toNat_eq
    have fits : file.advance offset.toNat size < 2 ^ 64 := by
      unfold File.advance
      omega
    rw [BitVec.toNat_ofNat, Nat.mod_eq_of_lt fits]
    unfold File.advance
    split
    · rename_i smaller
      rw [BitVec.lt_def, left, requested] at smaller
      rw [left]
      omega
    · rename_i larger
      rw [BitVec.lt_def, left, requested] at larger
      rw [requested]
      omega
  have advanced : (BitVec.ofNat 64 (file.advance offset.toNat size)).toNat =
      file.advance offset.toNat size := by
    rw [BitVec.toNat_ofNat, Nat.mod_eq_of_lt]
    unfold File.advance
    omega
  simp only [memcpy, copied, into, advanced, Prod.mk.injEq, true_and]
  rw [show cache.bytes = (file.chunk cache.offset.toNat).bytes from
    congrArg ChunkBytes.bytes holds.content]
  simp only [File.chunk, List.drop_take, List.drop_drop, List.take_take]
  congr 1
  · unfold File.advance dataCacheSize
    omega
  · congr 1
    omega

end DsoCache

theorem File.toNat_size (file : File) : (BitVec.ofNat 64 file.size).toNat = file.size := by
  have := file.length_lt
  unfold File.size
  rw [BitVec.toNat_ofNat]
  omega

theorem File.advance_le (file : File) (offset size : Nat) : file.advance offset size ≤ size := by
  unfold File.advance
  omega

theorem File.toInt_advance (file : File) (offset : Nat) {size : Nat} (small : size < 2 ^ 63) :
    (BitVec.ofNat 64 (file.advance offset size)).toInt = file.advance offset size := by
  have bound := file.advance_le offset size
  rw [BitVec.toInt_eq_toNat_of_lt (by rw [BitVec.toNat_ofNat]; omega), BitVec.toNat_ofNat,
    Nat.mod_eq_of_lt (by omega)]

/-- The chunk around an offset is empty only at the end of the file. -/
theorem File.advance_of_chunk_nil {offset : U64} {size : Nat}
    (empty : (file.chunk (chunkOffset offset).toNat).bytes = []) :
    file.advance offset.toNat size = 0 := by
  have length := congrArg List.length empty
  have start := toNat_chunkOffset offset
  simp only [File.chunk, List.length_take, List.length_drop, List.length_nil, dataCacheSize]
    at length
  unfold File.advance File.size
  omega

end DwBpf
