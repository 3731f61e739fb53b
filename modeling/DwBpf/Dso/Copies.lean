import DwBpf.Dso.Opening
import DwBpf.Dso.Ownership

/-! # Copies from cached chunks

The calls of `dso_cache__memcpy` that a read makes, whatever happens to the file
meanwhile. The offset was compared with the size that the file had at first, but the
chunk is as long as the file was when it was read. Only the first chunk of a read can
be too short for the offset: the later ones are read from their beginning or were
read to their end (`DwBpf.copies_within_iff`).
-/

namespace DwBpf

/-- A call of `dso_cache__memcpy`. -/
structure Copy where
  cache : DsoCache
  offset : U64
  size : U64

namespace Copy

/-- The bytes that the call writes. -/
def bytes (copy : Copy) : List Byte := (copy.cache.memcpy copy.offset copy.size).2

/-- The copy starts and ends within the bytes of the chunk, and the subtraction does not
wrap around. -/
structure Within (copy : Copy) : Prop where
  starts : copy.offset - copy.cache.offset ≤ copy.cache.size
  noWrap : (copy.cache.size - (copy.offset - copy.cache.offset)).toNat =
    copy.cache.size.toNat - (copy.offset - copy.cache.offset).toNat
  ends : (copy.offset - copy.cache.offset).toNat +
    (copy.cache.memcpy copy.offset copy.size).1.toNat ≤ copy.cache.bytes.length

end Copy

/-- The chunk that `dso_cache__read` copies from, if it gets that far. -/
def DsoCache.readChunk (os : Os) (turn : Nat) (data : DsoData) (offset : U64) : Option DsoCache :=
  match tryToOpenDso os { data with allocated := data.allocated + 1 } with
  | .error _ => none
  | .ok opened =>
      if opened.fd = none then none
      else match os.pread turn (chunkOffset offset) with
        | .failed => none
        | .read chunk =>
            if chunk.bytes = [] then none
            else
              let new : DsoCache :=
                { chunk with id := data.allocated, offset := chunkOffset offset }
              some ((insert ((os.others turn).foldl insertOther opened) new).1.getD new)

/-- The chunk that a turn of the loop copies from. -/
def turnChunk (os : Os) (turn : Nat) (data : DsoData) (offset : U64) : Option DsoCache :=
  match DsoCache.find data offset with
  | some cache => some cache
  | none => DsoCache.readChunk os turn data offset

/-- The copies of the loop of `cached_read`. -/
def cachedReadCopies (os : Os) (turn : Nat) (data : DsoData) (offset : U64) (size : Nat) :
    List Copy :=
  match turnChunk os turn data offset with
  | none => []
  | some cache =>
      ⟨cache, offset, BitVec.ofNat 64 size⟩ ::
        match dsoCacheRead os turn data offset (BitVec.ofNat 64 size) with
        | .error _ => []
        | .ok (ret, _, next) =>
            if 0 < ret ∧ ret.toNat < size then
              cachedReadCopies os (turn + 1) next (offset + BitVec.ofNat 64 ret.toNat)
                (size - ret.toNat)
            else []
termination_by size

/-- The copies of a call of `dso__data_read_offset`. -/
def ReadCall.copies (call : ReadCall) (data : DsoData) : List Copy :=
  if data.status = .error then []
  else match dataFileSize call.os data with
    | .error _ => []
    | .ok (known, sized) =>
        if known = false ∨ sized.fileSize < call.offset ∨
          call.offset + BitVec.ofNat 64 call.size < call.offset then []
        else cachedReadCopies call.os 0 sized call.offset call.size

section Turn

variable {os : Os} {turn : Nat} {data next : DsoData} {offset size : U64} {cache : DsoCache}
  {ret : Int} {bytes : List Byte}

/-- How `dso_cache__read` ends: it fails, it delivers nothing, or it copies from a chunk
that it has read and linked, or that another reader linked before. -/
theorem DsoCache.read_cases (os : Os) (turn : Nat) (data : DsoData) (offset size : U64) :
    (∃ failure, DsoCache.read os turn data offset size = .error failure ∧
      readChunk os turn data offset = none) ∨
    (∃ ret next, DsoCache.read os turn data offset size = .ok (ret, [], next) ∧ ret ≤ 0 ∧
      next.cache = data.cache ∧ readChunk os turn data offset = none) ∨
    ∃ opened chunk new cache next, opened.cache = data.cache ∧ data.Openable os ∧
      os.pread turn (chunkOffset offset) = .read chunk ∧ chunk.bytes ≠ [] ∧
      new.toChunkBytes = chunk ∧ new.offset = chunkOffset offset ∧
      cache = (insert ((os.others turn).foldl insertOther opened) new).1.getD new ∧
      next.cache = (insert ((os.others turn).foldl insertOther opened) new).2.cache ∧
      DsoCache.read os turn data offset size =
        .ok ((cache.memcpy offset size).1.toInt, (cache.memcpy offset size).2, next) ∧
      readChunk os turn data offset = some cache := by
  simp only [DsoCache.read, readChunk]
  cases opens : tryToOpenDso os { data with allocated := data.allocated + 1 } with
  | error failure => exact .inl ⟨failure, rfl, rfl⟩
  | ok opened =>
      have same : opened.cache = data.cache := by
        obtain ⟨_, _, rfl⟩ := tryToOpenDso_frame opens
        rfl
      simp only [ok_bind]
      by_cases closed : opened.fd = none
      · rw [if_pos closed, if_pos closed]
        exact .inr (.inl ⟨_, _, rfl, by omega, same, rfl⟩)
      · rw [if_neg closed, if_neg closed]
        cases answer : os.pread turn (chunkOffset offset) with
        | failed => exact .inr (.inl ⟨_, _, rfl, by decide, same, rfl⟩)
        | read chunk =>
            dsimp only
            by_cases empty : chunk.bytes = []
            · rw [if_pos empty, if_pos empty]
              exact .inr (.inl ⟨_, _, rfl, by decide, same, rfl⟩)
            · rw [if_neg empty, if_neg empty]
              have openable : DsoData.Openable os { data with allocated := data.allocated + 1 } :=
                openable_of_opens opens
              generalize inserted : insert ((os.others turn).foldl insertOther opened)
                ⟨chunk, data.allocated, chunkOffset offset⟩ = result
              obtain ⟨found, after⟩ := result
              refine .inr (.inr ⟨opened, chunk, ⟨chunk, data.allocated, chunkOffset offset⟩,
                found.getD ⟨chunk, data.allocated, chunkOffset offset⟩, ?_⟩)
              rw [inserted]
              cases found with
              | none =>
                  refine ⟨_, same, openable, rfl, empty, rfl, rfl, rfl, ?_, rfl, rfl⟩
                  dsimp only
                  split
                  · rfl
                  · rfl
              | some old =>
                  refine ⟨_, same, openable, rfl, empty, rfl, rfl, rfl, ?_, rfl, rfl⟩
                  dsimp only
                  split
                  · rfl
                  · rfl

/-- The operating system reads bytes at non-negative offsets only, and other readers link
chunks where this one does. -/
structure Os.Bounded (os : Os) : Prop where
  pread : ∀ turn offset chunk, os.pread turn offset = .read chunk → chunk.bytes ≠ [] →
    offset.toNat < 2 ^ 63
  others : ∀ turn, ∀ other ∈ os.others turn,
    other.offset.toNat % 4096 = 0 ∧ other.offset.toNat < 2 ^ 63

/-- Another reader's chunk is linked unless there is one already. -/
theorem DsoCache.insertOther_of_gridded {other : OtherRead} (gridded : Gridded data)
    (aligned : other.offset.toNat % 4096 = 0) (small : other.offset.toNat < 2 ^ 63) :
    Gridded (insertOther data other) ∧
      ((∃ old ∈ data.cache.toList, old.offset = other.offset ∧
          (insertOther data other).cache = data.cache) ∨
        ∃ new : DsoCache, new.offset = other.offset ∧ new.toChunkBytes = other.toChunkBytes ∧
          (insertOther data other).cache.toList.Perm (new :: data.cache.toList)) := by
  have counted : Gridded { data with allocated := data.allocated + 1 } := gridded.congr rfl
  have isAligned : Aligned ⟨other.toChunkBytes, data.allocated, other.offset⟩ := ⟨aligned, small⟩
  unfold insertOther
  rcases insert_of_gridded counted isAligned with
    ⟨old, member, inserted, same⟩ | ⟨tree, inserted, linked, griddedNext⟩
  · simp only [inserted]
    exact ⟨gridded.congr rfl, .inl ⟨old, member, same, rfl⟩⟩
  · simp only [inserted]
    exact ⟨griddedNext, .inr ⟨_, rfl, rfl, linked⟩⟩

theorem DsoCache.gridded_others (gridded : Gridded data) (others : List OtherRead)
    (bounded : ∀ other ∈ others, other.offset.toNat % 4096 = 0 ∧ other.offset.toNat < 2 ^ 63) :
    Gridded (others.foldl insertOther data) := by
  induction others generalizing data with
  | nil => exact gridded
  | cons other others ih =>
      obtain ⟨aligned, small⟩ := bounded other (List.mem_cons_self ..)
      apply ih (insertOther_of_gridded gridded aligned small).1
      intro later member
      exact bounded later (List.mem_cons_of_mem _ member)

/-- A turn fails, delivers nothing, or copies from the chunk around the offset, which is in
the cache then. -/
theorem dsoCacheRead_cases (bounded : os.Bounded) (gridded : Gridded data) (turn : Nat)
    (offset size : U64) :
    (∃ failure, dsoCacheRead os turn data offset size = .error failure ∧
      turnChunk os turn data offset = none) ∨
    (∃ ret next, dsoCacheRead os turn data offset size = .ok (ret, [], next) ∧ ret ≤ 0 ∧
      Gridded next ∧ turnChunk os turn data offset = none) ∨
    ∃ cache next, dsoCacheRead os turn data offset size =
        .ok ((cache.memcpy offset size).1.toInt, (cache.memcpy offset size).2, next) ∧
      Gridded next ∧ cache ∈ next.cache.toList ∧ cache.offset = chunkOffset offset ∧
      turnChunk os turn data offset = some cache := by
  unfold dsoCacheRead turnChunk
  cases found : DsoCache.find data offset with
  | some cache =>
      obtain ⟨member, around⟩ := DsoCache.find_of_gridded gridded found
      exact .inr (.inr ⟨cache, data, rfl, gridded, member, around, rfl⟩)
  | none =>
      dsimp only
      rcases DsoCache.read_cases os turn data offset size with
        ⟨failure, failed, none⟩ | ⟨ret, next, ended, nothing, same, none⟩ |
        ⟨opened, chunk, new, cache, next, same, -, answer, nonempty, -, around, rfl, after, ended,
          some⟩
      · exact .inl ⟨failure, failed, none⟩
      · exact .inr (.inl ⟨ret, next, ended, nothing, gridded.congr same, none⟩)
      · have start := toNat_chunkOffset offset
        have small := bounded.pread turn _ chunk answer nonempty
        have isAligned : new.Aligned := by
          constructor
          · rw [around]
            omega
          · rw [around]
            exact small
        have shared := DsoCache.gridded_others (gridded.congr same) (os.others turn)
          (bounded.others turn)
        refine .inr (.inr ⟨_, next, ended, ?_⟩)
        rcases DsoCache.insert_of_gridded shared isAligned with
          ⟨old, member, inserted, isOld⟩ | ⟨tree, inserted, linked, griddedNext⟩
        · rw [inserted] at after some ⊢
          refine ⟨shared.congr after, ?_, isOld.trans around, some⟩
          rw [after]
          exact member
        · rw [inserted] at after some ⊢
          refine ⟨griddedNext.congr after, ?_, around, some⟩
          rw [after]
          exact linked.mem_iff.mpr (List.mem_cons_self ..)

end Turn

theorem DsoCache.toNat_size (cache : DsoCache) : cache.size.toNat = cache.bytes.length := by
  have short := cache.length_le
  unfold dataCacheSize at short
  rw [DsoCache.size, BitVec.toNat_ofNat]
  omega

/-- A copy is within its chunk exactly if it starts there. -/
theorem Copy.within_iff (copy : Copy) :
    copy.Within ↔ (copy.offset - copy.cache.offset).toNat ≤ copy.cache.bytes.length := by
  have size := copy.cache.toNat_size
  constructor
  · intro within
    rw [← size]
    exact within.starts
  · intro starts
    have short := copy.cache.length_le
    have left : (copy.cache.size - (copy.offset - copy.cache.offset)).toNat =
        copy.cache.bytes.length - (copy.offset - copy.cache.offset).toNat := by
      rw [BitVec.toNat_sub_of_le (BitVec.le_def.mpr (by rw [size]; exact starts)), size]
    refine ⟨BitVec.le_def.mpr (by rw [size]; exact starts), by rw [left, size], ?_⟩
    simp only [DsoCache.memcpy]
    split
    · rw [left]
      omega
    · rename_i enough
      rw [BitVec.lt_def, left] at enough
      omega

section Loop

variable {os : Os} {data next : DsoData} {offset : U64} {cache : DsoCache} {size : Nat}

/-- What is copied from a chunk that reaches the offset: the rest of it, or less if less
is asked for. -/
theorem DsoCache.toInt_memcpy (around : cache.offset = chunkOffset offset) (small : size < 2 ^ 63)
    (reaches : offset.toNat % 4096 ≤ cache.bytes.length) :
    (cache.memcpy offset (BitVec.ofNat 64 size)).1.toInt =
      (min (cache.bytes.length - offset.toNat % 4096) size : Nat) := by
  have short := cache.length_le
  have into : (offset - cache.offset).toNat = offset.toNat % 4096 := by
    rw [around, toNat_sub_chunkOffset]
  have left : (cache.size - (offset - cache.offset)).toNat =
      cache.bytes.length - offset.toNat % 4096 := by
    rw [BitVec.toNat_sub_of_le (BitVec.le_def.mpr (by rw [into, toNat_size]; exact reaches)),
      toNat_size, into]
  have requested : (BitVec.ofNat 64 size).toNat = size := by
    rw [BitVec.toNat_ofNat]
    omega
  simp only [memcpy]
  split
  · rename_i less
    rw [BitVec.lt_def, left, requested] at less
    rw [BitVec.toInt_eq_toNat_of_lt (by omega), left]
    omega
  · rename_i enough
    rw [BitVec.lt_def, left, requested] at enough
    rw [BitVec.toInt_eq_toNat_of_lt (by omega), requested]
    omega

/-- Behind the rest of a chunk is the beginning of the next one, or the end of this one if
it is short. -/
theorem reaches_next {rest : Nat} (gridded : Gridded data) (member : cache ∈ data.cache.toList)
    (around : cache.offset = chunkOffset offset)
    (reaches : offset.toNat % 4096 ≤ cache.bytes.length)
    (isRest : rest = cache.bytes.length - offset.toNat % 4096) (turn : Nat) {following : DsoCache}
    (isChunk : turnChunk os turn data (offset + BitVec.ofNat 64 rest) = some following) :
    (offset + BitVec.ofNat 64 rest).toNat % 4096 ≤ following.bytes.length := by
  have short := cache.length_le
  have isAligned := gridded.aligned cache member
  have aligned := isAligned.aligned
  have bound := isAligned.small
  have start := toNat_chunkOffset offset
  rw [← around] at start
  have position : (offset + BitVec.ofNat 64 rest).toNat =
      cache.offset.toNat + cache.bytes.length := by
    rw [BitVec.toNat_add, BitVec.toNat_ofNat]
    unfold dataCacheSize at short
    omega
  by_cases full : cache.bytes.length = 4096
  · rw [position, full]
    omega
  · have same : cache.offset = chunkOffset (offset + BitVec.ofNat 64 rest) := by
      apply BitVec.eq_of_toNat_eq
      rw [toNat_chunkOffset, position]
      unfold dataCacheSize at short
      omega
    obtain ⟨found, isFound⟩ :=
      Option.isSome_iff_exists.mp (DsoCache.find_isSome gridded member same)
    obtain ⟨foundMember, foundAround⟩ := DsoCache.find_of_gridded gridded isFound
    rw [turnChunk, isFound] at isChunk
    cases isChunk
    rw [gridded.eq_of_offset foundMember member (foundAround.trans same.symm), position]
    unfold dataCacheSize at short
    omega

/-- If the first chunk reaches the offset, all copies of the loop are within their chunks. -/
theorem cachedReadCopies_within (bounded : os.Bounded) (gridded : Gridded data) (turn : Nat)
    (small : size < 2 ^ 63)
    (first : ∀ cache, turnChunk os turn data offset = some cache →
      offset.toNat % 4096 ≤ cache.bytes.length) :
    ∀ copy ∈ cachedReadCopies os turn data offset size, copy.Within := by
  induction size using Nat.strong_induction_on generalizing turn data offset with
  | _ size ih =>
    rw [cachedReadCopies]
    rcases dsoCacheRead_cases bounded gridded turn offset (BitVec.ofNat 64 size) with
      ⟨failure, -, none⟩ | ⟨ret, next, -, -, -, none⟩ |
      ⟨cache, next, ended, griddedNext, member, around, isChunk⟩
    · rw [none]
      exact fun copy inside => absurd inside List.not_mem_nil
    · rw [none]
      exact fun copy inside => absurd inside List.not_mem_nil
    · have reaches := first cache isChunk
      have count := DsoCache.toInt_memcpy around small reaches
      rw [isChunk, ended]
      dsimp only
      rw [count, Int.toNat_natCast]
      intro copy inside
      rcases List.mem_cons.mp inside with rfl | later
      · rw [Copy.within_iff, around, toNat_sub_chunkOffset]
        exact reaches
      · split at later
        · rename_i goesOn
          have isRest : min (cache.bytes.length - offset.toNat % 4096) size =
              cache.bytes.length - offset.toNat % 4096 := by
            omega
          refine ih _ (by omega) griddedNext (turn + 1) (by omega) ?_ copy later
          intro following isFollowing
          exact reaches_next griddedNext member around reaches isRest _ isFollowing
        · cases later

end Loop

section First

variable {os : Os} {data next : DsoData} {offset : U64} {cache : DsoCache} {size : Nat}

/-- The chunk around the offset reaches it: the one in the cache, or else the one that
another reader links first, or else the one that is read, if any. -/
structure DsoData.Reaches (os : Os) (data : DsoData) (offset : U64) : Prop where
  cached : ∀ cache ∈ data.cache.toList, cache.offset = chunkOffset offset →
    offset.toNat % 4096 ≤ cache.bytes.length
  read : (∀ cache ∈ data.cache.toList, cache.offset ≠ chunkOffset offset) → data.Openable os →
    ∀ chunk, os.pread 0 (chunkOffset offset) = .read chunk → chunk.bytes ≠ [] →
      offset.toNat % 4096 ≤ (((os.others 0).find? fun other =>
        other.offset = chunkOffset offset).elim chunk OtherRead.toChunkBytes).bytes.length

/-- A chunk is linked only where there is none. -/
theorem Gridded.ne_of_linked {tree : Tree DsoCache} {new : DsoCache} {items : List DsoCache}
    (gridded : Gridded { data with cache := tree }) (linked : tree.toList.Perm (new :: items)) :
    ∀ stored ∈ items, stored.offset ≠ new.offset := by
  have apart : tree.toList.Pairwise fun first second => second.offset ≠ first.offset := by
    refine gridded.sorted.imp fun below same => ?_
    rw [same] at below
    exact Nat.lt_irrefl _ below
  exact (List.pairwise_cons.mp ((linked.pairwise_iff Ne.symm).mp apart)).1

/-- Other readers leave the chunks that are there. -/
theorem DsoCache.mem_others (gridded : Gridded data) (others : List OtherRead)
    (bounded : ∀ other ∈ others, other.offset.toNat % 4096 = 0 ∧ other.offset.toNat < 2 ^ 63)
    (member : cache ∈ data.cache.toList) :
    cache ∈ (others.foldl insertOther data).cache.toList := by
  induction others generalizing data with
  | nil => exact member
  | cons other others ih =>
      obtain ⟨aligned, small⟩ := bounded other (List.mem_cons_self ..)
      obtain ⟨griddedNext, inserted⟩ := insertOther_of_gridded gridded aligned small
      apply ih griddedNext (fun later isLater => bounded later (List.mem_cons_of_mem _ isLater))
      rcases inserted with ⟨old, -, -, same⟩ | ⟨new, -, -, linked⟩
      · rw [same]
        exact member
      · exact linked.mem_iff.mpr (List.mem_cons_of_mem _ member)

/-- Where there was no chunk, there is the first that another reader read, if any. -/
theorem DsoCache.others_cases (gridded : Gridded data) (others : List OtherRead)
    (bounded : ∀ other ∈ others, other.offset.toNat % 4096 = 0 ∧ other.offset.toNat < 2 ^ 63)
    {place : U64} (absent : ∀ cache ∈ data.cache.toList, cache.offset ≠ place) :
    ((others.find? fun other => other.offset = place) = none ∧
      ∀ cache ∈ (others.foldl insertOther data).cache.toList, cache.offset ≠ place) ∨
    ∃ other cache, (others.find? fun other => other.offset = place) = some other ∧
      cache ∈ (others.foldl insertOther data).cache.toList ∧ cache.offset = place ∧
      cache.toChunkBytes = other.toChunkBytes := by
  induction others generalizing data with
  | nil => exact .inl ⟨rfl, absent⟩
  | cons other others ih =>
      obtain ⟨aligned, small⟩ := bounded other (List.mem_cons_self ..)
      obtain ⟨griddedNext, inserted⟩ := insertOther_of_gridded gridded aligned small
      have later : ∀ other ∈ others,
          other.offset.toNat % 4096 = 0 ∧ other.offset.toNat < 2 ^ 63 :=
        fun later isLater => bounded later (List.mem_cons_of_mem _ isLater)
      by_cases here : other.offset = place
      · rw [List.find?_cons_of_pos (by simpa using here)]
        rcases inserted with ⟨old, member, same, -⟩ | ⟨new, around, content, linked⟩
        · exact absurd (same.trans here) (absent old member)
        · refine .inr ⟨other, new, rfl, ?_, around.trans here, content⟩
          exact mem_others griddedNext others later (linked.mem_iff.mpr (List.mem_cons_self ..))
      · rw [List.find?_cons_of_neg (by simpa using here)]
        apply ih griddedNext later
        rcases inserted with ⟨old, -, -, same⟩ | ⟨new, around, -, linked⟩
        · rw [same]
          exact absent
        · intro cache member
          rcases List.mem_cons.mp (linked.mem_iff.mp member) with rfl | stored
          · rw [around]
            exact here
          · exact absent cache stored

/-- The chunk that is copied from where there was none in the cache. -/
theorem DsoCache.bytes_of_read (bounded : os.Bounded) (gridded : Gridded data)
    (absent : ∀ cache ∈ data.cache.toList, cache.offset ≠ chunkOffset offset) {opened : DsoData}
    {chunk : ChunkBytes} {new : DsoCache} {turn : Nat} (same : opened.cache = data.cache)
    (answer : os.pread turn (chunkOffset offset) = .read chunk) (nonempty : chunk.bytes ≠ [])
    (content : new.toChunkBytes = chunk) (around : new.offset = chunkOffset offset) :
    ((insert ((os.others turn).foldl insertOther opened) new).1.getD new).toChunkBytes =
      ((os.others turn).find? fun other => other.offset = chunkOffset offset).elim chunk
        OtherRead.toChunkBytes := by
  have start := toNat_chunkOffset offset
  have isAligned : new.Aligned := by
    constructor
    · rw [around]
      omega
    · rw [around]
      exact bounded.pread turn _ chunk answer nonempty
  have griddedOpened : Gridded opened := gridded.congr same
  have shared := gridded_others griddedOpened (os.others turn) (bounded.others turn)
  rw [← same] at absent
  rcases others_cases griddedOpened (os.others turn) (bounded.others turn) absent with
    ⟨none, free⟩ | ⟨other, cache, isOther, member, place, bytes⟩
  · rw [none]
    rcases insert_of_gridded shared isAligned with ⟨old, isOld, -, place⟩ | ⟨tree, inserted, -, -⟩
    · exact absurd (place.trans around) (free old isOld)
    · rw [inserted]
      exact content
  · rw [isOther]
    rcases insert_of_gridded shared isAligned with
      ⟨old, isOld, inserted, isPlace⟩ | ⟨tree, -, linked, griddedTree⟩
    · rw [inserted]
      change old.toChunkBytes = other.toChunkBytes
      rw [shared.eq_of_offset isOld member (isPlace.trans (around.trans place.symm)), bytes]
    · exact absurd (place.trans around.symm) (griddedTree.ne_of_linked linked cache member)

/-- Where the file can be opened and `pread` returns some bytes, a chunk is copied from. -/
theorem DsoCache.readChunk_of_openable {turn : Nat} {chunk : ChunkBytes}
    (openable : data.Openable os) (answer : os.pread turn (chunkOffset offset) = .read chunk)
    (nonempty : chunk.bytes ≠ []) :
    ∃ cache, readChunk os turn data offset = some cache := by
  have counted : DsoData.Openable os { data with allocated := data.allocated + 1 } := openable
  obtain ⟨opened, opens, isOpen⟩ := tryToOpenDso_ok counted
  unfold readChunk
  rw [opens]
  dsimp only
  rw [if_neg isOpen, answer]
  dsimp only
  rw [if_neg nonempty]
  exact ⟨_, rfl⟩

/-- Where there is no chunk in the cache, this is what a turn copies from. -/
theorem DsoCache.bytes_of_readChunk (bounded : os.Bounded) (gridded : Gridded data) {turn : Nat}
    (absent : ∀ cache ∈ data.cache.toList, cache.offset ≠ chunkOffset offset)
    (isChunk : readChunk os turn data offset = some cache) :
    ∃ chunk, data.Openable os ∧ os.pread turn (chunkOffset offset) = .read chunk ∧
      chunk.bytes ≠ [] ∧ cache.toChunkBytes =
        ((os.others turn).find? fun other => other.offset = chunkOffset offset).elim chunk
          OtherRead.toChunkBytes := by
  rcases read_cases os turn data offset 0 with
    ⟨failure, -, none⟩ | ⟨ret, next, -, -, -, none⟩ |
    ⟨opened, chunk, new, cache', next, same, openable, answer, nonempty, content, around, rfl, -, -,
      isChunk'⟩
  · cases none.symm.trans isChunk
  · cases none.symm.trans isChunk
  · cases isChunk'.symm.trans isChunk
    exact ⟨chunk, openable, answer, nonempty,
      bytes_of_read bounded gridded absent same answer nonempty content around⟩

/-- The first turn copies from a chunk that reaches the offset exactly if the chunk around
the offset does. -/
theorem reaches_iff (bounded : os.Bounded) (gridded : Gridded data) :
    (∀ cache, turnChunk os 0 data offset = some cache →
      offset.toNat % 4096 ≤ cache.bytes.length) ↔ data.Reaches os offset := by
  cases found : DsoCache.find data offset with
  | some cache =>
      obtain ⟨member, around⟩ := DsoCache.find_of_gridded gridded found
      rw [turnChunk, found]
      constructor
      · intro first
        constructor
        · intro other isOther same
          rw [gridded.eq_of_offset isOther member (same.trans around.symm)]
          exact first cache rfl
        · intro absent
          exact absurd around (absent cache member)
      · intro reaches other same
        cases same
        exact reaches.cached cache member around
  | none =>
      have absent : ∀ cache ∈ data.cache.toList, cache.offset ≠ chunkOffset offset := by
        intro cache member around
        have isSome := DsoCache.find_isSome gridded member around
        rw [found] at isSome
        cases isSome
      rw [turnChunk, found]
      constructor
      · intro first
        constructor
        · intro cache member around
          exact absurd around (absent cache member)
        · intro _ openable chunk answer nonempty
          obtain ⟨cache, isChunk⟩ := DsoCache.readChunk_of_openable openable answer nonempty
          obtain ⟨chunk', -, answer', -, bytes⟩ :=
            DsoCache.bytes_of_readChunk bounded gridded absent isChunk
          cases answer.symm.trans answer'
          rw [← bytes]
          exact first cache isChunk
      · intro reaches cache isChunk
        obtain ⟨chunk, openable, answer, nonempty, bytes⟩ :=
          DsoCache.bytes_of_readChunk bounded gridded absent isChunk
        rw [bytes]
        exact reaches.read absent openable chunk answer nonempty

end First

section Calls

variable {os : Os} {data next : DsoData} {call : ReadCall}

/-- The call gets to the loop: the dso is not known to be unusable, the range does not wrap
around, and the offset is not beyond the size of the file as it was found out before, or
else is found out now. -/
def ReadCall.Passes (call : ReadCall) (data : DsoData) : Prop :=
  data.status ≠ .error ∧ ¬ call.offset + BitVec.ofNat 64 call.size < call.offset ∧
    (data.fileSize ≠ 0 ∧ call.offset ≤ data.fileSize ∨
      data.fileSize = 0 ∧ data.Openable call.os ∧
        ∃ size, call.os.fstat = some size ∧ call.offset ≤ size)

theorem DsoData.Reaches.congr {offset : U64} (reaches : data.Reaches os offset)
    (cache : next.cache = data.cache) (openable : next.Openable os → data.Openable os) :
    next.Reaches os offset where
  cached := by
    rw [cache]
    exact reaches.cached
  read := by
    rw [cache]
    intro absent opens
    exact reaches.read absent (openable opens)

/-- A call copies in its loop, if it gets there. -/
theorem ReadCall.copies_cases (call : ReadCall) (data : DsoData) :
    (¬ call.Passes data ∧ call.copies data = []) ∨
    ∃ sized, call.Passes data ∧ sized.cache = data.cache ∧
      (sized.Openable call.os ↔ data.Openable call.os) ∧
      call.copies data = cachedReadCopies call.os 0 sized call.offset call.size := by
  unfold Passes copies
  by_cases failed : data.status = .error
  · rw [if_pos failed]
    exact .inl ⟨fun passes => passes.1 failed, rfl⟩
  · rw [if_neg failed]
    by_cases wraps : call.offset + BitVec.ofNat 64 call.size < call.offset
    · refine .inl ⟨fun passes => passes.2.1 wraps, ?_⟩
      split
      · rfl
      · rw [if_pos (.inr (.inr wraps))]
    · rcases dataFileSize_cases call.os failed with
        ⟨known, sized⟩ | ⟨unknown, cannot, failure, fails⟩ | ⟨unknown, none, next, fails⟩ |
        ⟨size, next, unknown, openable, answer, sized, isSize, cache, openableNext⟩
      · rw [sized]
        dsimp only
        by_cases beyond : data.fileSize < call.offset
        · rw [if_pos (.inr (.inl beyond))]
          refine .inl ⟨?_, rfl⟩
          rintro ⟨-, -, ⟨-, below⟩ | ⟨unknown, -⟩⟩
          · exact absurd beyond (BitVec.not_lt.mpr below)
          · exact known unknown
        · rw [if_neg (by simp [beyond, wraps])]
          exact .inr ⟨data, ⟨failed, wraps, .inl ⟨known, BitVec.not_lt.mp beyond⟩⟩, rfl, Iff.rfl,
            rfl⟩
      · rw [fails]
        refine .inl ⟨?_, rfl⟩
        rintro ⟨-, -, ⟨known, -⟩ | ⟨-, openable, -⟩⟩
        · exact known unknown
        · exact cannot openable
      · rw [fails]
        dsimp only
        rw [if_pos (.inl rfl)]
        refine .inl ⟨?_, rfl⟩
        rintro ⟨-, -, ⟨known, -⟩ | ⟨-, -, size, answer, -⟩⟩
        · exact known unknown
        · cases none.symm.trans answer
      · rw [sized]
        dsimp only
        rw [isSize]
        by_cases beyond : size < call.offset
        · rw [if_pos (.inr (.inl beyond))]
          refine .inl ⟨?_, rfl⟩
          rintro ⟨-, -, ⟨known, -⟩ | ⟨-, -, size', answer', below⟩⟩
          · exact known unknown
          · cases answer.symm.trans answer'
            exact absurd beyond (BitVec.not_lt.mpr below)
        · rw [if_neg (by simp [beyond, wraps])]
          exact .inr ⟨next, ⟨failed, wraps, .inr ⟨unknown, openable, size, answer,
            BitVec.not_lt.mp beyond⟩⟩, cache, iff_of_true openableNext openable, rfl⟩

/-- The copies of a call are within their chunks exactly if the first chunk reaches the
offset, or the call does not get that far. -/
theorem ReadCall.within_iff (bounded : call.os.Bounded) (gridded : Gridded data) :
    (∀ copy ∈ call.copies data, copy.Within) ↔
      (call.Passes data → data.Reaches call.os call.offset) := by
  rcases call.copies_cases data with ⟨stops, nothing⟩ | ⟨sized, passes, cache, openable, loop⟩
  · rw [nothing]
    refine iff_of_true (fun copy inside => absurd inside List.not_mem_nil) ?_
    intro passes
    exact absurd passes stops
  · have griddedSized : Gridded sized := gridded.congr cache
    rw [loop]
    constructor
    · intro within _
      have first : sized.Reaches call.os call.offset := by
        rw [← reaches_iff bounded griddedSized]
        intro chunk isChunk
        have copy : Copy.Within ⟨chunk, call.offset, BitVec.ofNat 64 call.size⟩ := by
          apply within
          rw [cachedReadCopies, isChunk]
          exact List.mem_cons_self ..
        rw [Copy.within_iff] at copy
        rcases dsoCacheRead_cases bounded griddedSized 0 call.offset 0 with
          ⟨-, -, none⟩ | ⟨-, -, -, -, -, none⟩ | ⟨chunk', -, -, -, -, around, isChunk'⟩
        · cases none.symm.trans isChunk
        · cases none.symm.trans isChunk
        · cases isChunk'.symm.trans isChunk
          rw [around, toNat_sub_chunkOffset] at copy
          exact copy
      exact first.congr cache.symm openable.mpr
    · intro reaches
      apply cachedReadCopies_within bounded griddedSized 0 call.size_lt
      rw [reaches_iff bounded griddedSized]
      exact (reaches passes).congr cache openable.mp

theorem dsoCacheRead_gridded (bounded : os.Bounded) (gridded : Gridded data) {turn : Nat}
    {offset size : U64} {ret : Int} {bytes : List Byte}
    (ran : dsoCacheRead os turn data offset size = .ok (ret, bytes, next)) : Gridded next := by
  rcases dsoCacheRead_cases bounded gridded turn offset size with
    ⟨failure, failed, -⟩ | ⟨ret', next', ended, -, griddedNext, -⟩ |
    ⟨cache, next', ended, griddedNext, -⟩
  · cases failed.symm.trans ran
  · cases ended.symm.trans ran
    exact griddedNext
  · cases ended.symm.trans ran
    exact griddedNext

theorem dataFileSize_gridded {known : Bool} (gridded : Gridded data)
    (ran : dataFileSize os data = .ok (known, next)) : Gridded next := by
  obtain ⟨fd, status, fileSize, rfl⟩ := dataFileSize_frame ran
  exact gridded.congr rfl

/-- Whatever happens to the file, the chunks stay at their places. -/
theorem ReadCall.step_gridded {answer : Int × List Byte} (bounded : call.os.Bounded)
    (gridded : Gridded data) (stepped : call.step data = .ok (answer, next)) : Gridded next := by
  obtain ⟨⟨count, bytes, last⟩, read, done⟩ := bind_eq_ok_iff.mp stepped
  cases done
  exact DsoData.readOffset_invariant Gridded
    (fun _ _ _ _ _ _ _ before turned => dsoCacheRead_gridded bounded before turned)
    (fun _ _ _ before sized => dataFileSize_gridded before sized) gridded read

/-- The bytes that the loop delivers are those of its copies, one after the other. -/
theorem cachedRead_bytes (bounded : os.Bounded) (gridded : Gridded data) {turn size r : Nat}
    {offset : U64} {written bytes : List Byte} {count : Int} (small : size < 2 ^ 63)
    (ran : cachedRead os turn data offset size r written = .ok (count, bytes, next)) :
    bytes = written ++ (cachedReadCopies os turn data offset size).flatMap Copy.bytes := by
  induction size using Nat.strong_induction_on generalizing turn data offset r written with
  | _ size ih =>
    rw [cachedRead] at ran
    rw [cachedReadCopies]
    rcases dsoCacheRead_cases bounded gridded turn offset (BitVec.ofNat 64 size) with
      ⟨failure, failed, -⟩ | ⟨ret, after, ended, nothing, -, none⟩ |
      ⟨cache, after, ended, griddedAfter, -, -, isChunk⟩
    · rw [failed] at ran
      cases ran
    · rw [ended] at ran
      rw [none]
      dsimp only at ran
      rw [List.flatMap_nil, List.append_nil]
      split at ran
      · cases ran
        rfl
      · split at ran
        · cases ran
          rfl
        · omega
    · have copied := cache.toInt_memcpy_of_small offset small
      have writes : (Copy.mk cache offset (BitVec.ofNat 64 size)).bytes =
          (cache.memcpy offset (BitVec.ofNat 64 size)).2 := rfl
      rw [ended] at ran
      rw [isChunk, ended]
      dsimp only at ran ⊢
      rw [copied] at ran ⊢
      rw [Int.toNat_natCast] at ran ⊢
      rw [if_neg (by omega)] at ran
      split at ran
      · rename_i zero
        cases ran
        have nothing : (cache.memcpy offset (BitVec.ofNat 64 size)).2 = [] := by
          change List.take (cache.memcpy offset (BitVec.ofNat 64 size)).1.toNat _ = []
          rw [Int.natCast_eq_zero.mp zero]
          rfl
        rw [if_neg (by omega), List.flatMap_singleton, writes, nothing, List.append_nil]
      · split at ran
        · cases ran
        · split at ran
          · cases ran
            rw [if_neg (by omega), List.flatMap_singleton, writes]
          · rw [if_pos (by omega), List.flatMap_cons, writes, ← List.append_assoc]
            exact ih _ (by omega) griddedAfter (by omega) ran

/-- The copies are all that a call delivers. -/
theorem ReadCall.bytes_of_step {count : Int} {bytes : List Byte} (bounded : call.os.Bounded)
    (gridded : Gridded data) (stepped : call.step data = .ok ((count, bytes), next)) :
    bytes = (call.copies data).flatMap Copy.bytes := by
  obtain ⟨⟨count', bytes', last⟩, read, done⟩ := bind_eq_ok_iff.mp stepped
  cases done
  unfold DsoData.readOffset dataReadOffset at read
  unfold copies
  by_cases failed : data.status = .error
  · rw [if_pos failed] at read
    rw [if_pos failed]
    cases read
    rfl
  · rw [if_neg failed] at read
    rw [if_neg failed]
    obtain ⟨⟨known, sized⟩, fileSize, rest⟩ := bind_eq_ok_iff.mp read
    have griddedSized : Gridded sized := dataFileSize_gridded gridded fileSize
    rw [fileSize]
    dsimp only at rest ⊢
    split at rest
    · rename_i unknown
      cases rest
      rw [if_pos (.inl (Bool.not_eq_true _ ▸ unknown))]
      rfl
    · rename_i isKnown
      split at rest
      · rename_i beyond
        cases rest
        rw [if_pos (.inr (.inl beyond))]
        rfl
      · rename_i below
        split at rest
        · rename_i wraps
          cases rest
          rw [if_pos (.inr (.inr wraps))]
          rfl
        · rename_i fits
          rw [if_neg (by simp_all)]
          exact cachedRead_bytes bounded griddedSized call.size_lt rest

end Calls

/-- **Copies.** In every run of reads on a dso, whatever happens to the file and however
much of a chunk is read, all copies are within their chunks exactly if in each call that
gets to the loop the chunk around the offset reaches it. -/
theorem copies_within_iff (calls : List ReadCall) (bounded : ∀ call ∈ calls, call.os.Bounded) :
    EachStep ReadCall.step (fun data call => ∀ copy ∈ call.copies data, copy.Within) calls
        DsoData.new ↔
      EachStep ReadCall.step
        (fun data call => call.Passes data → data.Reaches call.os call.offset) calls
        DsoData.new := by
  apply eachStep_congr _ _ bounded gridded_new
  · intro call data answer next gridded isBounded stepped
    exact ReadCall.step_gridded isBounded gridded stepped
  · intro call data gridded isBounded
    exact ReadCall.within_iff isBounded gridded

theorem File.served_bounded (file : File) : file.served.Bounded where
  pread := by
    intro turn offset chunk answer nonempty
    cases answer
    have bound := file.length_lt
    by_contra large
    apply nonempty
    change (file.bytes.drop offset.toNat).take dataCacheSize = []
    rw [List.drop_eq_nil_of_le (by omega), List.take_nil]
  others := by
    intro turn other member
    obtain ⟨aligned, inside, -⟩ := file.served_serves.others turn other member
    exact ⟨aligned, Nat.lt_trans inside file.length_lt⟩

/-- A read of the file of three bytes takes its first chunk, which reaches the offset. -/
theorem copies_within_threeBytes :
    (∀ call ∈ threeByteReads.take 1, call.os.Bounded) ∧
      EachStep ReadCall.step (fun data call => ∀ copy ∈ call.copies data, copy.Within)
        (threeByteReads.take 1) DsoData.new := by
  have bounded : ∀ call ∈ threeByteReads.take 1, call.os.Bounded := by
    intro call member
    rw [List.mem_singleton.mp member]
    exact threeBytes.served_bounded
  refine ⟨bounded, (copies_within_iff _ bounded).mpr ⟨fun _ => ⟨?_, ?_⟩, fun _ _ _ => trivial⟩⟩
  · intro cache member
    cases member
  · intro _ _ chunk answer _
    cases answer
    decide

theorem four_lt : 4 < 2 ^ 63 := by decide

/-- The first four bytes of a file. -/
def fourBytes : ChunkBytes := ⟨[0x7f, 0x45, 0x4c, 0x46], by decide⟩

/-- A file that is sixteen bytes long when its size is asked for, and four bytes long when
it is read. -/
def truncatedRead : ReadCall where
  offset := 8
  size := 4
  size_lt := four_lt
  os :=
    { regular := true
      opened := some 3
      errno := 0
      fstat := some 16
      pread := fun _ offset => if offset = 0 then .read fourBytes else .failed
      others := fun _ => [] }

/-- The copy starts behind the bytes of the chunk. -/
theorem truncated_not_within :
    truncatedRead.os.Bounded ∧
      ¬ EachStep ReadCall.step (fun data call => ∀ copy ∈ call.copies data, copy.Within)
        [truncatedRead] DsoData.new := by
  refine ⟨⟨?_, fun _ _ member => nomatch member⟩, ?_⟩
  · intro turn offset chunk answer _
    change (if offset = 0 then _ else _) = _ at answer
    split at answer
    · rename_i zero
      rw [zero]
      decide
    · cases answer
  · intro each
    have copied : ⟨⟨fourBytes, 0, 0⟩, 8, 4⟩ ∈ truncatedRead.copies DsoData.new := by
      change _ ∈ cachedReadCopies truncatedRead.os 0
        { DsoData.new with fd := some 3, status := .ok, fileSize := 16 } 8 4
      rw [cachedReadCopies]
      exact List.mem_cons_self ..
    exact absurd (each.1 _ copied).starts (by decide)

end DwBpf
