import DwBpf.Dso.Opening
import DwBpf.Dso.Transparency

/-! # Who owns a chunk

`dso_cache__read` allocates a chunk and either frees it or hands it to the
cache. Every allocated chunk is linked, freed or still held by a reader, and in
one of these places only (`DwBpf.Ledger`): allocating, freeing and linking move
it between them. The one step that breaks the ledger is the `free` after a copy
of no bytes out of a chunk that is already linked. It is not taken in a turn
that finds its chunk, fails to read it, has nothing to read or copies at least
one byte. A run of reads whose first turns are of these kinds keeps every linked
chunk (`DwBpf.readOffset_run_owned`), and no other run does (`DwBpf.owned_run_iff`).
-/

namespace DwBpf

/-- What the users of the cache rely on between calls: no linked chunk has been
freed, an allocated chunk that is not linked has been freed once, and no chunk
has been freed twice. -/
structure Owned (data : DsoData) : Prop where
  linked : ∀ cache ∈ data.cache.toList, cache.id ∉ data.freed
  disposed : ∀ id < data.allocated, (∀ cache ∈ data.cache.toList, cache.id ≠ id) →
    data.freed.count id = 1
  once : data.freed.Nodup

/-- Every chunk allocated so far is in one place: linked, freed or held. -/
def Ledger (data : DsoData) (held : List Nat) : Prop :=
  (data.cache.toList.map DsoCache.id ++ (data.freed ++ held)).Perm (List.range data.allocated)

theorem ledger_new : Ledger DsoData.new [] := .nil

variable {file : File} {os : Os} {data : DsoData} {offset : U64} {held : List Nat}

/-- Between calls no reader holds a chunk, so that every chunk is linked or freed, and not
both. -/
theorem Ledger.owned (ledger : Ledger data []) : Owned data := by
  have nodup := ledger.nodup_iff.mpr List.nodup_range
  rw [List.append_nil] at nodup
  obtain ⟨-, freedNodup, apart⟩ := List.nodup_append.mp nodup
  refine ⟨?_, ?_, freedNodup⟩
  · intro cache member freed
    exact apart cache.id (List.mem_map_of_mem member) cache.id freed rfl
  · intro id below unlinked
    apply List.count_eq_one_of_mem freedNodup
    have place := ledger.mem_iff.mpr (List.mem_range.mpr below)
    rw [List.append_nil] at place
    rcases List.mem_append.mp place with linked | freed
    · obtain ⟨cache, member, same⟩ := List.mem_map.mp linked
      exact (unlinked cache member same).elim
    · exact freed

/-- The fields outside the ledger do not matter to it. -/
theorem Ledger.congr {other : DsoData} (ledger : Ledger data held)
    (cache : other.cache = data.cache) (freed : other.freed = data.freed)
    (allocated : other.allocated = data.allocated) : Ledger other held := by
  unfold Ledger
  rw [cache, freed, allocated]
  exact ledger

theorem Ledger.alloc (ledger : Ledger data held) :
    Ledger { data with allocated := data.allocated + 1 } (data.allocated :: held) := by
  unfold Ledger at ledger ⊢
  rw [List.range_succ]
  refine .trans ?_ (List.perm_append_singleton _ _).symm
  refine .trans ?_ (ledger.cons data.allocated)
  rw [← List.append_assoc, ← List.append_assoc]
  exact List.perm_middle

theorem Ledger.free {id : Nat} (ledger : Ledger data (id :: held)) :
    Ledger (data.free id) held := by
  refine .trans ?_ ledger
  apply List.Perm.append_left
  exact List.perm_middle.symm

theorem Ledger.link {leaf : List (Frame DsoCache)} (new : DsoCache)
    (ledger : Ledger data (new.id :: held))
    (fell : data.cache.locate (DsoCache.steer new.offset) [] = .inr leaf) :
    Ledger { data with cache := Tree.link leaf new } held := by
  refine .trans ?_ ledger
  have ids := (Tree.toList_link_of_locate new fell).map DsoCache.id
  refine (ids.append_right _).trans ?_
  rw [List.map_cons, List.cons_append, ← List.append_assoc, ← List.append_assoc]
  exact List.perm_middle.symm

namespace DsoCache

/-- An insertion that succeeds takes over the held chunk. -/
theorem ledger_insert {new : DsoCache} (ledger : Ledger data (new.id :: held)) {next : DsoData}
    (won : insert data new = (none, next)) : Ledger next held := by
  unfold insert at won
  cases located : data.cache.locate (steer new.offset) [] with
  | inl old => simp [located] at won
  | inr leaf =>
      simp only [located, Prod.mk.injEq, true_and] at won
      exact won ▸ ledger.link new located

theorem ledger_insertOther (ledger : Ledger data held) (other : OtherRead) :
    Ledger (insertOther data other) held := by
  simp only [insertOther, insert]
  cases located : data.cache.locate (steer other.offset) [] with
  | inl old => exact ledger.alloc.free
  | inr leaf =>
      exact Ledger.link ⟨other.toChunkBytes, data.allocated, other.offset⟩ ledger.alloc located

theorem ledger_others (ledger : Ledger data held) (others : List OtherRead) :
    Ledger (others.foldl insertOther data) held := by
  induction others generalizing data with
  | nil => exact ledger
  | cons other others ih => exact ih (ledger_insertOther ledger other)

end DsoCache

/-- The operating system reads off the file what it reads, but any of its
operations may fail. -/
structure Os.Reads (os : Os) (file : File) : Prop where
  fstat : os.fstat = none ∨ os.fstat = some (BitVec.ofNat 64 file.size)
  pread : ∀ turn offset, offset.toNat % 4096 = 0 →
    os.pread turn offset = .failed ∨ os.pread turn offset = .read (file.chunk offset.toNat)
  others : ∀ turn, ∀ other ∈ os.others turn, other.Correct file

theorem Os.Serves.reads (serves : os.Serves file) : os.Reads file where
  fstat := .inr serves.fstat
  pread := fun turn offset aligned => .inr (serves.pread turn offset aligned)
  others := serves.others

/-- What is known after a turn of the read loop that returned `ret`. -/
structure Turned (file : File) (offset : U64) (size : Nat) (ret : Int) (next : DsoData) : Prop where
  ledger : Ledger next []
  cached : Cached file next
  progress : 0 < ret → ret = file.advance offset.toNat size ∧ (DsoCache.find next offset).isSome

/-- A turn that reads a chunk copies from one that is linked by then, whichever reader has
linked it, and frees that one if it has copied nothing. -/
theorem DsoCache.read_of_chunk (reads : os.Reads file) (cached : Cached file data)
    (within : offset.toNat ≤ file.size) {size turn : Nat} (small : size < 2 ^ 63)
    {ready : DsoData}
    (opened : tryToOpenDso os { data with allocated := data.allocated + 1 } = .ok ready)
    (answered : os.pread turn (chunkOffset offset) ≠ .failed)
    (inside : (chunkOffset offset).toNat < file.size) :
    ∃ cache linked, DsoCache.read os turn data offset (BitVec.ofNat 64 size) =
        .ok (file.advance offset.toNat size,
          (file.bytes.drop offset.toNat).take (file.advance offset.toNat size),
          if file.advance offset.toNat size = 0 then linked.free cache.id else linked) ∧
      cache ∈ linked.cache.toList ∧ cache.offset = chunkOffset offset ∧ Cached file linked ∧
      (Ledger data [] → Ledger linked []) := by
  have start := toNat_chunkOffset offset
  have readyCached : Cached file ready := by
    obtain ⟨fd, status, rfl⟩ := tryToOpenDso_frame opened
    exact cached.congr rfl rfl
  have readyLedger : Ledger data [] → Ledger ready [data.allocated] := by
    intro ledger
    obtain ⟨fd, status, rfl⟩ := tryToOpenDso_frame opened
    exact ledger.alloc.congr rfl rfl rfl
  have answer := (reads.pread turn (chunkOffset offset) (by omega)).resolve_left answered
  have nonempty : (file.chunk (chunkOffset offset).toNat).bytes ≠ [] := by
    apply List.ne_nil_of_length_pos
    simp only [File.chunk, List.length_take, List.length_drop]
    unfold File.size at inside
    unfold dataCacheSize
    omega
  have fresh : DsoCache.Holds ⟨file.chunk (chunkOffset offset).toNat, data.allocated,
      chunkOffset offset⟩ file :=
    ⟨by show (chunkOffset offset).toNat % 4096 = 0; omega, inside, rfl⟩
  have shared := cached_others readyCached (os.others turn) (reads.others turn)
  have sharedLedger := fun ledger => ledger_others (readyLedger ledger) (os.others turn)
  have copied : (BitVec.ofNat 64 (file.advance offset.toNat size)).toInt =
      file.advance offset.toNat size := file.toInt_advance _ small
  unfold DsoCache.read
  simp only [opened, ok_bind, fd_of_opens opened, ↓reduceIte, answer, pure_eq_ok, nonempty]
  rcases insert_of_cached shared fresh with
    ⟨old, member, inserted, holds, around⟩ | ⟨tree, inserted, member, linked⟩
  · refine ⟨old, DsoData.free _ data.allocated, ?_, member, around, shared.congr rfl rfl,
      fun ledger => (sharedLedger ledger).free⟩
    simp only [inserted, memcpy_of_holds holds around within small, copied, Int.natCast_nonpos_iff]
  · refine ⟨_, _, ?_, member, rfl, linked,
      fun ledger => ledger_insert (sharedLedger ledger) inserted⟩
    simp only [inserted]
    rw [memcpy_of_holds fresh rfl within small]
    simp only [copied, Int.natCast_nonpos_iff]

/-- A turn that reads its chunk, when it fails to, there is none or some of it is
copied. The last `free` would be one too many; it is not reached. -/
theorem DsoCache.read_turned (reads : os.Reads file) (cached : Cached file data)
    (ledger : Ledger data []) (within : offset.toNat ≤ file.size) {size turn : Nat}
    (small : size < 2 ^ 63)
    (copies : os.pread turn (chunkOffset offset) = .failed ∨
      file.size ≤ (chunkOffset offset).toNat ∨ 0 < file.advance offset.toNat size)
    {ret : Int} {bytes : List Byte} {next : DsoData}
    (ran : DsoCache.read os turn data offset (BitVec.ofNat 64 size) = .ok (ret, bytes, next)) :
    Turned file offset size ret next := by
  have start := toNat_chunkOffset offset
  obtain ⟨ready, opened, rest⟩ := bind_eq_ok_iff.mp ran
  have readyLedger : Ledger ready [data.allocated] := by
    obtain ⟨fd, status, rfl⟩ := tryToOpenDso_frame opened
    exact ledger.alloc.congr rfl rfl rfl
  have readyCached : Cached file ready := by
    obtain ⟨fd, status, rfl⟩ := tryToOpenDso_frame opened
    exact cached.congr rfl rfl
  simp only [fd_of_opens opened, ↓reduceIte] at rest
  rcases reads.pread turn (chunkOffset offset) (by omega) with answer | answer
  · simp only [answer, pure_eq_ok, Except.ok.injEq, Prod.mk.injEq] at rest
    obtain ⟨rfl, -, rfl⟩ := rest
    exact ⟨readyLedger.free, readyCached.congr rfl rfl, by omega⟩
  · have answered : os.pread turn (chunkOffset offset) ≠ .failed := by
      intro failed
      cases answer.symm.trans failed
    rcases copies.resolve_left answered with behind | some
    · have empty : (file.chunk (chunkOffset offset).toNat).bytes = [] := by
        change (file.bytes.drop (chunkOffset offset).toNat).take dataCacheSize = []
        rw [List.drop_eq_nil_of_le behind, List.take_nil]
      simp only [answer, empty, ↓reduceIte, pure_eq_ok, Except.ok.injEq, Prod.mk.injEq] at rest
      obtain ⟨rfl, -, rfl⟩ := rest
      exact ⟨readyLedger.free, readyCached.congr rfl rfl, by omega⟩
    · have inside : (chunkOffset offset).toNat < file.size := by
        unfold File.advance at some
        omega
      obtain ⟨cache, linked, read, member, around, kept, ledgers⟩ :=
        DsoCache.read_of_chunk reads cached within small opened answered inside
      rw [if_neg (by omega)] at read
      cases ran.symm.trans read
      exact ⟨ledgers ledger, kept, fun _ => ⟨rfl, find_isSome kept.gridded member around⟩⟩

/-- The turn does not reach the `free` of a linked chunk: it finds its chunk,
fails to read it, has none to read, or copies some of it. -/
def TurnSafe (file : File) (os : Os) (turn : Nat) (data : DsoData) (offset : U64) (size : Nat) :
    Prop :=
  (DsoCache.find data offset).isSome ∨ os.pread turn (chunkOffset offset) = .failed ∨
    file.size ≤ (chunkOffset offset).toNat ∨ 0 < file.advance offset.toNat size

/-- A safe turn keeps the ledger, whether the chunk is cached or read. -/
theorem dsoCacheRead_turned (reads : os.Reads file) (cached : Cached file data)
    (ledger : Ledger data []) (within : offset.toNat ≤ file.size) {size turn : Nat}
    (small : size < 2 ^ 63) (safe : TurnSafe file os turn data offset size)
    {ret : Int} {bytes : List Byte} {next : DsoData}
    (ran : dsoCacheRead os turn data offset (BitVec.ofNat 64 size) = .ok (ret, bytes, next)) :
    Turned file offset size ret next := by
  unfold dsoCacheRead at ran
  cases found : DsoCache.find data offset with
  | some cache =>
      obtain ⟨holds, around⟩ := DsoCache.find_eq_some cached found
      simp only [found, DsoCache.memcpy_of_holds holds around within small,
        file.toInt_advance _ small, Except.ok.injEq, Prod.mk.injEq] at ran
      obtain ⟨rfl, -, rfl⟩ := ran
      exact ⟨ledger, cached, fun _ => ⟨rfl, by rw [found]; rfl⟩⟩
  | none =>
      simp only [found] at ran
      have copies := safe.resolve_left (by simp [found])
      exact DsoCache.read_turned reads cached ledger within small copies ran

/-- After a turn that copied to the end of its chunk or of the file, the next one
is safe: at the end of the file its chunk is the one just used, or empty. -/
theorem turnSafe_next {size : Nat} (turn : Nat) (small : size < 2 ^ 63)
    (within : offset.toNat ≤ file.size) (cached : Cached file data)
    (more : file.advance offset.toNat size < size)
    (found : (DsoCache.find data offset).isSome) :
    TurnSafe file os turn data (offset + BitVec.ofNat 64 (file.advance offset.toNat size))
      (size - file.advance offset.toNat size) := by
  have fileBound := file.length_lt
  have moved : (offset + BitVec.ofNat 64 (file.advance offset.toNat size)).toNat =
      offset.toNat + file.advance offset.toNat size := by
    rw [BitVec.toNat_add, BitVec.toNat_ofNat]
    unfold File.advance File.size at *
    omega
  have start := toNat_chunkOffset offset
  have nextStart := toNat_chunkOffset
    (offset + BitVec.ofNat 64 (file.advance offset.toNat size))
  rw [moved] at nextStart
  by_cases ended : offset.toNat + file.advance offset.toNat size = file.size
  · by_cases aligned : file.size % 4096 = 0
    · right; right; left
      omega
    · left
      obtain ⟨cache, member⟩ := Option.isSome_iff_exists.mp found
      have around := (DsoCache.find_eq_some cached member).2
      refine DsoCache.find_isSome cached.gridded (Tree.find?_eq_some member).1 ?_
      rw [around]
      apply BitVec.eq_of_toNat_eq
      unfold File.advance at *
      omega
  · right; right; right
    rw [moved]
    unfold File.advance at *
    omega

/-- The read loop keeps the ledger when its first turn is safe. -/
theorem cachedRead_ledger (reads : os.Reads file) (cached : Cached file data)
    (ledger : Ledger data []) (within : offset.toNat ≤ file.size) {size turn r : Nat}
    (small : size < 2 ^ 63) (safe : TurnSafe file os turn data offset size)
    {written bytes : List Byte}
    {ret : Int} {next : DsoData}
    (ran : cachedRead os turn data offset size r written = .ok (ret, bytes, next)) :
    Ledger next [] ∧ Cached file next := by
  induction size using Nat.strong_induction_on generalizing data offset turn r written with
  | _ size ih =>
      rw [cachedRead] at ran
      split at ran
      · cases ran
      · rename_i copied part after turned
        have after := dsoCacheRead_turned reads cached ledger within small safe turned
        split at ran
        · cases ran
          exact ⟨after.ledger, after.cached⟩
        · split at ran
          · cases ran
            exact ⟨after.ledger, after.cached⟩
          · obtain ⟨rfl, found⟩ := after.progress (by omega)
            have bound := file.advance_le offset.toNat size
            simp only [Int.toNat_natCast, show ¬ size < file.advance offset.toNat size by omega,
              ↓reduceIte] at ran
            split at ran
            · cases ran
              exact ⟨after.ledger, after.cached⟩
            · have step : file.advance offset.toNat size ≤ file.size - offset.toNat := by
                unfold File.advance
                omega
              have moved : (offset + BitVec.ofNat 64 (file.advance offset.toNat size)).toNat =
                  offset.toNat + file.advance offset.toNat size := by
                have fileBound := file.length_lt
                rw [BitVec.toNat_add, BitVec.toNat_ofNat]
                unfold File.size at *
                omega
              exact ih _ (by omega) after.cached after.ledger (by omega) (by omega)
                (turnSafe_next _ small within after.cached (by omega) found) ran

/-- Asking for the size of the file touches no chunk. -/
theorem dataFileSize_ledger (reads : os.Reads file) (cached : Cached file data)
    (ledger : Ledger data []) {known : Bool} {next : DsoData}
    (ran : dataFileSize os data = .ok (known, next)) :
    Ledger next [] ∧ Cached file next ∧ next.cache = data.cache ∧
      (known → next.fileSize = BitVec.ofNat 64 file.size) := by
  unfold dataFileSize at ran
  split at ran
  · rename_i nonzero
    cases ran
    exact ⟨ledger, cached, rfl, fun _ => cached.fileSize.resolve_left nonzero⟩
  · split at ran
    · cases ran
      exact ⟨ledger, cached, rfl, nofun⟩
    · obtain ⟨ready, opened, ran⟩ := bind_eq_ok_iff.mp ran
      obtain ⟨fd, status, rfl⟩ := tryToOpenDso_frame opened
      split at ran
      · cases ran
        exact ⟨ledger.congr rfl rfl rfl, cached.congr rfl rfl, rfl, nofun⟩
      · split at ran
        · cases ran
          exact ⟨ledger.congr rfl rfl rfl, cached.congr rfl rfl, rfl, nofun⟩
        · rename_i size answer
          cases ran
          have same : size = BitVec.ofNat 64 file.size := by
            rcases reads.fstat with failed | told
            · simp [failed] at answer
            · exact Option.some.inj (answer.symm.trans told)
          subst same
          exact ⟨ledger.congr rfl rfl rfl, ⟨cached.holds, cached.sorted, .inr rfl⟩, rfl,
            fun _ => rfl⟩

/-- The size is found out if it is known or can be asked for. -/
theorem dataFileSize_known_iff {known : Bool} {next : DsoData} (usable : data.status ≠ .error)
    (ran : dataFileSize os data = .ok (known, next)) :
    known = true ↔ ¬ (data.fileSize = 0 ∧ os.fstat = none) := by
  rcases dataFileSize_cases os usable with ⟨sized, found⟩ | ⟨-, -, failure, failed⟩ |
    ⟨unknown, refused, next', failed⟩ | ⟨size, next', -, -, answer, found, -⟩
  · cases ran.symm.trans found
    exact iff_of_true rfl fun unsized => sized unsized.1
  · cases ran.symm.trans failed
  · cases ran.symm.trans failed
    exact iff_of_false Bool.false_ne_true (not_not_intro ⟨unknown, refused⟩)
  · cases ran.symm.trans found
    refine iff_of_true rfl fun unsized => ?_
    cases answer.symm.trans unsized.2

/-- The call returns before it looks for a chunk: an operation on the file has failed
before, its size cannot be asked for, or the offset is behind its end. -/
def ReadCall.Refused (file : File) (data : DsoData) (call : ReadCall) : Prop :=
  data.status = .error ∨ (data.fileSize = 0 ∧ call.os.fstat = none) ∨
    file.size < call.offset.toNat

/-- The call does not reach the `free` of a linked chunk: it is refused, its chunk is
cached already or cannot be read, there is nothing to read at its offset, or it asks
for at least one byte of an offset inside the file. -/
def ReadCall.Safe (file : File) (data : DsoData) (call : ReadCall) : Prop :=
  call.Refused file data ∨ (DsoCache.find data call.offset).isSome ∨
    call.os.pread 0 (chunkOffset call.offset) = .failed ∨
    file.size ≤ (chunkOffset call.offset).toNat ∨
    0 < call.size ∧ call.offset.toNat < file.size

/-- A safe call keeps the ledger and the chunks of the file. -/
theorem ReadCall.step_ledger {call : ReadCall} (reads : call.os.Reads file)
    (safe : call.Safe file data) (kept : Ledger data [] ∧ Cached file data)
    {answer : Int × List Byte} {next : DsoData} (ran : call.step data = .ok (answer, next)) :
    Ledger next [] ∧ Cached file next := by
  obtain ⟨ledger, cached⟩ := kept
  unfold ReadCall.step at ran
  obtain ⟨⟨ret, bytes, after⟩, ran, returned⟩ := bind_eq_ok_iff.mp ran
  cases returned
  unfold DsoData.readOffset at ran
  split at ran
  · cases ran
    exact ⟨ledger, cached⟩
  · rename_i usable
    unfold dataReadOffset at ran
    obtain ⟨⟨known, ready⟩, sized, ran⟩ := bind_eq_ok_iff.mp ran
    obtain ⟨readyLedger, readyCached, cache, size⟩ :=
      dataFileSize_ledger reads cached ledger sized
    simp only [pure_eq_ok] at ran
    split at ran
    · cases ran
      exact ⟨readyLedger, readyCached⟩
    · rename_i answered
      split at ran
      · cases ran
        exact ⟨readyLedger, readyCached⟩
      · rename_i past
        split at ran
        · cases ran
          exact ⟨readyLedger, readyCached⟩
        · have within : call.offset.toNat ≤ file.size := by
            rw [size (by simpa using answered), BitVec.lt_def, file.toNat_size] at past
            omega
          have turn : TurnSafe file call.os 0 ready call.offset call.size := by
            rcases safe with (failed | unknown | beyond) | found | unread | nothing | ⟨some, inside⟩
            · exact absurd failed usable
            · rw [Bool.not_eq_true, Bool.not_eq_false] at answered
              exact absurd unknown ((dataFileSize_known_iff usable sized).mp answered)
            · omega
            · left
              unfold DsoCache.find at found ⊢
              rwa [cache]
            · exact .inr (.inl unread)
            · exact .inr (.inr (.inl nothing))
            · right; right; right
              unfold File.advance
              omega
          exact cachedRead_ledger reads readyCached readyLedger within call.size_lt turn ran

/-- A turn that reads its chunk and copies nothing of it frees the chunk that it has linked,
or the one that another reader has. -/
theorem DsoCache.read_frees (reads : os.Reads file) (cached : Cached file data)
    (within : offset.toNat ≤ file.size) {size turn : Nat} (small : size < 2 ^ 63)
    (answered : os.pread turn (chunkOffset offset) ≠ .failed)
    (inside : (chunkOffset offset).toNat < file.size)
    (nothing : file.advance offset.toNat size = 0) {ret : Int} {bytes : List Byte}
    {next : DsoData}
    (ran : DsoCache.read os turn data offset (BitVec.ofNat 64 size) = .ok (ret, bytes, next)) :
    ret = 0 ∧ ∃ cache ∈ next.cache.toList, cache.id ∈ next.freed := by
  obtain ⟨ready, opened, -⟩ := bind_eq_ok_iff.mp ran
  obtain ⟨cache, linked, read, member, -⟩ :=
    DsoCache.read_of_chunk reads cached within small opened answered inside
  rw [if_pos nothing, nothing] at read
  cases ran.symm.trans read
  exact ⟨rfl, cache, member, List.mem_cons_self⟩

theorem cachedRead_frees (reads : os.Reads file) (cached : Cached file data)
    (within : offset.toNat ≤ file.size) {size turn r : Nat} (small : size < 2 ^ 63)
    (missing : DsoCache.find data offset = none)
    (answered : os.pread turn (chunkOffset offset) ≠ .failed)
    (inside : (chunkOffset offset).toNat < file.size)
    (nothing : file.advance offset.toNat size = 0) {written bytes : List Byte} {ret : Int}
    {next : DsoData}
    (ran : cachedRead os turn data offset size r written = .ok (ret, bytes, next)) :
    ∃ cache ∈ next.cache.toList, cache.id ∈ next.freed := by
  rw [cachedRead] at ran
  split at ran
  · cases ran
  · rename_i copied part after turned
    rw [dsoCacheRead, missing] at turned
    obtain ⟨rfl, freed⟩ :=
      DsoCache.read_frees reads cached within small answered inside nothing turned
    simp only [Int.lt_irrefl, ↓reduceIte, Except.ok.injEq, Prod.mk.injEq] at ran
    obtain ⟨-, -, rfl⟩ := ran
    exact freed

/-- A call after which the chunks are owned was safe. -/
theorem ReadCall.safe_of_owned {call : ReadCall} (reads : call.os.Reads file)
    (kept : Ledger data [] ∧ Cached file data) {answer : Int × List Byte} {next : DsoData}
    (ran : call.step data = .ok (answer, next)) (owned : Owned next) : call.Safe file data := by
  by_contra risky
  simp only [Safe, Refused, not_or, Nat.not_lt, Nat.not_le] at risky
  obtain ⟨⟨usable, sizable, within⟩, missing, answered, inside, idle⟩ := risky
  have nothing : file.advance call.offset.toNat call.size = 0 := by
    unfold File.advance
    omega
  obtain ⟨⟨ret, bytes, after⟩, ran, returned⟩ := bind_eq_ok_iff.mp ran
  cases returned
  rw [DsoData.readOffset, if_neg usable, dataReadOffset] at ran
  obtain ⟨⟨known, ready⟩, sized, ran⟩ := bind_eq_ok_iff.mp ran
  obtain ⟨-, readyCached, cache, size⟩ := dataFileSize_ledger reads kept.2 kept.1 sized
  obtain rfl := (dataFileSize_known_iff usable sized).mpr sizable
  have small := call.size_lt
  have fileSmall := file.length_lt
  have passes : ¬ ready.fileSize < call.offset := by
    rw [size rfl, BitVec.lt_def, file.toNat_size]
    omega
  have fits : ¬ call.offset + BitVec.ofNat 64 call.size < call.offset := by
    rw [BitVec.lt_def, BitVec.toNat_add, BitVec.toNat_ofNat]
    unfold File.size at within
    omega
  have absent : DsoCache.find ready call.offset = none := by
    rw [DsoCache.find, cache]
    exact Option.not_isSome_iff_eq_none.mp missing
  simp only [not_true_eq_false, ↓reduceIte, passes, fits] at ran
  obtain ⟨chunk, linked, freed⟩ :=
    cachedRead_frees reads readyCached within small absent answered inside nothing ran
  exact owned.linked chunk linked freed

/-- **Linked chunks are kept.** In a run of reads on a file's dso whose calls
are all safe in the state they meet, every state reached owns its chunks,
whichever reader wins each race and whichever reads fail. -/
theorem readOffset_run_owned (file : File) (calls : List ReadCall)
    (reads : ∀ call ∈ calls, call.os.Reads file)
    (safe : EachStep ReadCall.step (fun data call => call.Safe file data) calls DsoData.new)
    {answers : List (Int × List Byte)} {last : DsoData}
    (ran : runAll ReadCall.step calls DsoData.new = .ok (answers, last)) : Owned last := by
  have kept : ∀ call data answer next, Ledger data [] ∧ Cached file data →
      call.Safe file data ∧ call.os.Reads file → ReadCall.step call data = .ok (answer, next) →
      Ledger next [] ∧ Cached file next := by
    intro call data answer next before condition stepped
    exact ReadCall.step_ledger condition.2 condition.1 before stepped
  have start : Ledger DsoData.new [] ∧ Cached file DsoData.new := ⟨ledger_new, cached_new file⟩
  exact (runAll_invariant kept start (safe.and_mem reads) ran).1.owned

/-- Only then: every state that a run reaches owns its chunks exactly when all of its calls
are safe. -/
theorem owned_run_iff (file : File) (calls : List ReadCall)
    (reads : ∀ call ∈ calls, call.os.Reads file) {answers : List (Int × List Byte)}
    {last : DsoData} (ran : runAll ReadCall.step calls DsoData.new = .ok (answers, last)) :
    EachStep ReadCall.step
        (fun data call => ∀ answer next, call.step data = .ok (answer, next) → Owned next) calls
        DsoData.new ↔
      EachStep ReadCall.step (fun data call => call.Safe file data) calls DsoData.new := by
  have kept : ∀ call data answer next, Ledger data [] ∧ Cached file data → call.os.Reads file →
      call.Safe file data → ReadCall.step call data = .ok (answer, next) →
      Ledger next [] ∧ Cached file next :=
    fun call data answer next before reads safe => ReadCall.step_ledger reads safe before
  have agree : ∀ call data answer next, Ledger data [] ∧ Cached file data → call.os.Reads file →
      ReadCall.step call data = .ok (answer, next) →
      ((∀ answer next, ReadCall.step call data = .ok (answer, next) → Owned next) ↔
        call.Safe file data) := by
    intro call data answer next before reads stepped
    constructor
    · intro owned
      exact ReadCall.safe_of_owned reads before stepped (owned answer next stepped)
    · intro safe answer next stepped
      exact (ReadCall.step_ledger reads safe before stepped).1.owned
  exact eachStep_congr_of_ran kept agree reads ⟨ledger_new, cached_new file⟩ ran

theorem readOffset_run_owned_threeBytes :
    (∀ call ∈ threeByteReads.take 1, call.os.Reads threeBytes) ∧
      ∃ last, runAll ReadCall.step (threeByteReads.take 1) DsoData.new =
        .ok ([(2, [0x45, 0x4c])], last) ∧ Owned last := by
  have reads : ∀ call ∈ threeByteReads.take 1, call.os.Reads threeBytes := by
    simp [threeByteReads, threeBytes.served_serves.reads]
  have safe : EachStep ReadCall.step (fun data call => call.Safe threeBytes data)
      (threeByteReads.take 1) DsoData.new :=
    ⟨.inr (.inr (.inr (.inr (by decide)))), fun _ _ _ => trivial⟩
  let last : DsoData :=
    { cache := .node .black .nil ⟨threeBytes.chunk 0, 1, 0⟩ .nil, fd := some 3, status := .ok,
      fileSize := 3, ehFrameHdrOffset := 0, allocated := 2, freed := [0] }
  have ran : runAll ReadCall.step (threeByteReads.take 1) DsoData.new =
      .ok ([(2, [0x45, 0x4c])], last) := by decide +kernel
  exact ⟨reads, last, ran, readOffset_run_owned threeBytes (threeByteReads.take 1) reads safe ran⟩

theorem eight_lt : 8 < 2 ^ 63 := by decide

/-- A read at the end of the file, with no other reader about. -/
def endOfFileRead : ReadCall :=
  ⟨3, 8, eight_lt, { threeBytes.served with others := fun _ => [] }⟩

/-- The read at the end of the three-byte file links the file's only chunk,
copies nothing out of it and frees it. -/
theorem readOffset_frees_linked :
    endOfFileRead.os.Reads threeBytes ∧ endOfFileRead.offset.toNat = threeBytes.size ∧
      ∃ last, runAll ReadCall.step [endOfFileRead] DsoData.new = .ok ([(0, [])], last) ∧
        ¬ Owned last := by
  refine ⟨⟨.inr rfl, fun _ _ _ => .inr rfl, nofun⟩, by decide,
    { cache := .node .black .nil ⟨threeBytes.chunk 0, 0, 0⟩ .nil, fd := some 3, status := .ok,
      fileSize := 3, ehFrameHdrOffset := 0, allocated := 1, freed := [0] }, by decide +kernel, ?_⟩
  intro owned
  exact owned.linked ⟨threeBytes.chunk 0, 0, 0⟩ (by simp) (by simp)

end DwBpf
