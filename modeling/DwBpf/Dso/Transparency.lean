import DwBpf.Dso.Cache

/-! # Cached reads of an unchanging file

A dso whose file does not change reads as if there were no cache. One turn of
the read loop copies what is left of the chunk around the current offset,
whichever reader brought it in (`DwBpf.dsoCacheRead_of_cached`), and a run of
reads answers each of them from the contents of the file alone
(`DwBpf.readOffset_run_transparent`).
-/

namespace DwBpf

/-- The operating system serves the file: it can be opened, `fstat` tells its
size, `pread` delivers its chunks, and so it does to the other readers. -/
structure Os.Serves (os : Os) (file : File) : Prop where
  regular : os.regular = true
  opened : os.opened.isSome
  fstat : os.fstat = some (BitVec.ofNat 64 file.size)
  pread : ∀ turn offset, offset.toNat % 4096 = 0 →
    os.pread turn offset = .read (file.chunk offset.toNat)
  others : ∀ turn, ∀ other ∈ os.others turn, other.Correct file

/-- The cache is one of the file, and no operation on the file has failed. -/
structure Serving (file : File) (data : DsoData) : Prop extends Cached file data where
  status : data.status ≠ .error

variable {file : File} {os : Os} {data : DsoData} {offset : U64}

theorem tryToOpenDso_of_serves (serves : os.Serves file) (serving : Serving file data) :
    ∃ opened, tryToOpenDso os data = .ok opened ∧ Serving file opened ∧ opened.fd.isSome := by
  obtain ⟨descriptor, answer⟩ := Option.isSome_iff_exists.mp serves.opened
  unfold tryToOpenDso
  cases present : data.fd with
  | some fd => exact ⟨data, rfl, serving, by simp [present]⟩
  | none =>
      simp only [openDso, serves.regular, doOpen, answer, ↓reduceIte, ok_bind, pure_eq_ok,
        Option.isSome_some]
      exact ⟨_, rfl, ⟨serving.congr rfl rfl, by simp⟩, rfl⟩

/-- A chunk that is read rather than found: this reader links it, or another
reader has and this one copies from that chunk. -/
theorem DsoCache.read_of_cached (serves : os.Serves file) (serving : Serving file data)
    (within : offset.toNat ≤ file.size) {size : Nat} (small : size < 2 ^ 63) (turn : Nat) :
    ∃ next, DsoCache.read os turn data offset (BitVec.ofNat 64 size) =
      .ok (file.advance offset.toNat size,
        (file.bytes.drop offset.toNat).take (file.advance offset.toNat size), next) ∧
      Serving file next := by
  have start := toNat_chunkOffset offset
  have counted : Serving file { data with allocated := data.allocated + 1 } :=
    ⟨serving.congr rfl rfl, serving.status⟩
  obtain ⟨ready, opened, readyServing, descriptor⟩ := tryToOpenDso_of_serves serves counted
  have answer := serves.pread turn (chunkOffset offset) (by omega)
  simp only [DsoCache.read, opened, ok_bind, answer, pure_eq_ok,
    show ready.fd ≠ none from Option.isSome_iff_ne_none.mp descriptor, ↓reduceIte]
  by_cases empty : (file.chunk (chunkOffset offset).toNat).bytes = []
  · simp only [empty, ↓reduceIte, File.advance_of_chunk_nil empty, List.take_zero]
    exact ⟨_, rfl, readyServing.congr rfl rfl, readyServing.status⟩
  · have inside : (chunkOffset offset).toNat < file.size := by
      have length := List.length_pos_of_ne_nil empty
      simp only [File.chunk, List.length_take, List.length_drop] at length
      unfold File.size
      omega
    have fresh : DsoCache.Holds ⟨file.chunk (chunkOffset offset).toNat, data.allocated,
        chunkOffset offset⟩ file :=
      ⟨by show (chunkOffset offset).toNat % 4096 = 0; omega, inside, rfl⟩
    have shared := DsoCache.cached_others readyServing.toCached (os.others turn)
      (serves.others turn)
    have healthy : ((os.others turn).foldl DsoCache.insertOther ready).status ≠ .error := by
      obtain ⟨_, _, _, others⟩ := DsoCache.others_frame ready (os.others turn)
      rw [others]
      exact readyServing.status
    simp only [empty, ↓reduceIte]
    rcases DsoCache.insert_of_cached shared fresh with
      ⟨old, -, inserted, holds, around⟩ | ⟨tree, inserted, -, linked⟩
    · simp only [inserted, DsoCache.memcpy_of_holds holds around within small,
        file.toInt_advance _ small]
      refine ⟨_, rfl, ?_⟩
      split <;> exact ⟨shared.congr rfl rfl, healthy⟩
    · simp only [inserted]
      rw [DsoCache.memcpy_of_holds fresh rfl within small]
      simp only [file.toInt_advance _ small]
      refine ⟨_, rfl, ?_⟩
      split <;> exact ⟨linked.congr rfl rfl, healthy⟩

/-- One turn of the read loop copies what is left of the chunk around the
offset, from the cache, from its own read or from another reader's. -/
theorem dsoCacheRead_of_cached (serves : os.Serves file) (serving : Serving file data)
    (within : offset.toNat ≤ file.size) {size : Nat} (small : size < 2 ^ 63) (turn : Nat) :
    ∃ next, dsoCacheRead os turn data offset (BitVec.ofNat 64 size) =
      .ok (file.advance offset.toNat size,
        (file.bytes.drop offset.toNat).take (file.advance offset.toNat size), next) ∧
      Serving file next := by
  cases found : DsoCache.find data offset with
  | some cache =>
      obtain ⟨holds, around⟩ := DsoCache.find_eq_some serving.toCached found
      simp only [dsoCacheRead, found, DsoCache.memcpy_of_holds holds around within small,
        file.toInt_advance _ small]
      exact ⟨data, rfl, serving⟩
  | none =>
      simp only [dsoCacheRead, found]
      exact DsoCache.read_of_cached serves serving within small turn

/-- The read loop delivers the bytes up to the end of the file. The induction is
on the bytes still requested, of which every turn that goes on copies some. -/
theorem cachedRead_of_cached (serves : os.Serves file) (serving : Serving file data)
    (within : offset.toNat ≤ file.size) {size : Nat} (small : size < 2 ^ 63) (turn r : Nat)
    (written : List Byte) :
    ∃ next, cachedRead os turn data offset size r written =
      .ok ((r + min size (file.size - offset.toNat) : Nat),
        written ++ (file.bytes.drop offset.toNat).take size, next) ∧ Serving file next := by
  induction size using Nat.strong_induction_on generalizing data offset turn r written with
  | _ size ih =>
      obtain ⟨next, turned, nextServing⟩ :=
        dsoCacheRead_of_cached serves serving within small turn
      have bound := file.advance_le offset.toNat size
      have fileBound := file.length_lt
      rw [cachedRead]
      simp only [turned, show ¬ ((file.advance offset.toNat size : Int) < 0) by omega, ↓reduceIte,
        Int.natCast_eq_zero, Int.toNat_natCast,
          show ¬ size < file.advance offset.toNat size by omega]
      by_cases done : file.advance offset.toNat size = 0
      · have nothing : min size (file.size - offset.toNat) = 0 := by
          unfold File.advance at done
          omega
        simp only [done, ↓reduceIte, nothing, Nat.add_zero]
        refine ⟨next, ?_, nextServing⟩
        have : (file.bytes.drop offset.toNat).take size = [] := by
          rw [← List.length_eq_zero_iff, List.length_take, List.length_drop]
          exact nothing
        rw [this, List.append_nil]
      · simp only [done, ↓reduceIte]
        by_cases last : size - file.advance offset.toNat size = 0
        · have all : file.advance offset.toNat size = size := by omega
          simp only [last, ↓reduceIte]
          refine ⟨next, ?_, nextServing⟩
          have enough : min size (file.size - offset.toNat) = size := by
            unfold File.advance at all
            omega
          rw [all, enough, Nat.cast_add]
        · simp only [last, ↓reduceIte]
          have moved : (offset + BitVec.ofNat 64 (file.advance offset.toNat size)).toNat =
              offset.toNat + file.advance offset.toNat size := by
            rw [BitVec.toNat_add, BitVec.toNat_ofNat]
            unfold File.advance File.size at *
            omega
          have step : file.advance offset.toNat size ≤ file.size - offset.toNat := by
            unfold File.advance
            omega
          obtain ⟨final, rest, finalServing⟩ := ih (size - file.advance offset.toNat size)
            (by omega) nextServing (by rw [moved]; omega) (by omega) (turn + 1)
              (r + file.advance offset.toNat size)
            (written ++ (file.bytes.drop offset.toNat).take (file.advance offset.toNat size))
          refine ⟨final, ?_, finalServing⟩
          rw [rest, moved, List.append_assoc, ← List.drop_drop, ← List.take_add]
          congr 3
          · omega
          · congr 3
            omega

theorem dataFileSize_of_cached (serves : os.Serves file) (serving : Serving file data) :
    ∃ next, dataFileSize os data = .ok (true, next) ∧ Serving file next ∧
      next.fileSize = BitVec.ofNat 64 file.size := by
  unfold dataFileSize
  by_cases known : data.fileSize = 0
  · obtain ⟨ready, opened, readyServing, descriptor⟩ := tryToOpenDso_of_serves serves serving
    simp only [known, ne_eq, not_true_eq_false, ↓reduceIte, serving.status, opened, ok_bind,
      show ready.fd ≠ none from Option.isSome_iff_ne_none.mp descriptor, serves.fstat, pure_eq_ok]
    exact ⟨_, rfl, ⟨⟨readyServing.holds, readyServing.sorted, .inr rfl⟩, readyServing.status⟩, rfl⟩
  · simp only [ne_eq, known, not_false_eq_true, ↓reduceIte]
    exact ⟨data, rfl, serving, serving.fileSize.resolve_left known⟩

/-- A read of the dso is a read of the file. -/
theorem DsoData.readOffset_of_cached (serves : os.Serves file) (serving : Serving file data)
    (offset : U64) {size : Nat} (small : size < 2 ^ 63) :
    ∃ next, data.readOffset os offset size =
      .ok ((file.read offset size).1, (file.read offset size).2, next) ∧ Serving file next := by
  obtain ⟨ready, sized, readyServing, known⟩ := dataFileSize_of_cached serves serving
  have wraps : offset + BitVec.ofNat 64 size < offset ↔ 2 ^ 64 ≤ offset.toNat + size := by
    rw [BitVec.lt_def, BitVec.toNat_add, BitVec.toNat_ofNat]
    have := offset.isLt
    omega
  have past : BitVec.ofNat 64 file.size < offset ↔ file.size < offset.toNat := by
    rw [BitVec.lt_def, file.toNat_size]
  simp only [readOffset, serving.status, ↓reduceIte, dataReadOffset, sized, ok_bind,
    not_true_eq_false, known, past, wraps, pure_eq_ok, File.read]
  by_cases beyond : file.size < offset.toNat
  · simp only [beyond, ↓reduceIte, true_or]
    exact ⟨ready, rfl, readyServing⟩
  · by_cases wrapped : 2 ^ 64 ≤ offset.toNat + size
    · simp only [beyond, wrapped, ↓reduceIte, or_true]
      exact ⟨ready, rfl, readyServing⟩
    · simp only [beyond, wrapped, ↓reduceIte, or_self]
      obtain ⟨next, looped, nextServing⟩ := cachedRead_of_cached serves readyServing
        (Nat.not_lt.mp beyond) small 0 0 []
      refine ⟨next, ?_, nextServing⟩
      rw [looped, Nat.zero_add, List.nil_append]

/-- One call of `dso__data_read_offset`, with the operating system's answers to it. -/
structure ReadCall where
  offset : U64
  size : Nat
  size_lt : size < 2 ^ 63
  os : Os

def ReadCall.step (call : ReadCall) (data : DsoData) :
    Except Fault ((Int × List Byte) × DsoData) := do
  let (ret, bytes, data) ← data.readOffset call.os call.offset call.size
  return ((ret, bytes), data)

/-- By induction on the calls: each is answered from the file and leaves a cache of the
file. -/
theorem ReadCall.run_of_cached {calls : List ReadCall}
    (serves : ∀ call ∈ calls, call.os.Serves file) (serving : Serving file data) :
    ∃ last, runAll ReadCall.step calls data =
      .ok (calls.map fun call => file.read call.offset call.size, last) ∧ Serving file last := by
  induction calls generalizing data with
  | nil => exact ⟨data, rfl, serving⟩
  | cons call calls ih =>
      obtain ⟨next, answered, nextServing⟩ := DsoData.readOffset_of_cached
        (serves call (by simp)) serving call.offset call.size_lt
      obtain ⟨last, ran, lastServing⟩ :=
        ih (fun later member => serves later (by simp [member])) nextServing
      refine ⟨last, ?_, lastServing⟩
      simp only [runAll, ReadCall.step, answered, ok_bind, pure_eq_ok, ran, List.map_cons]

/-- **Cache transparency.** Every run of reads on a dso that starts with the
empty cache returns, and answers each read as a read of the file itself: whatever
reads came before, and whatever chunks other readers link meanwhile. -/
theorem readOffset_run_transparent (file : File) (calls : List ReadCall)
    (serves : ∀ call ∈ calls, call.os.Serves file) :
    ∃ last, runAll ReadCall.step calls DsoData.new =
      .ok (calls.map fun call => file.read call.offset call.size, last) := by
  obtain ⟨last, ran, -⟩ := ReadCall.run_of_cached serves ⟨cached_new file, by decide⟩
  exact ⟨last, ran⟩

/-- The answers of an operating system that serves a file to this reader while
another one reads and links the file's first chunk in every turn. -/
def File.served (file : File) : Os where
  regular := true
  opened := some 3
  errno := 0
  fstat := some (BitVec.ofNat 64 file.size)
  pread := fun _ offset => .read (file.chunk offset.toNat)
  others := fun _ => if 0 < file.size then [{ file.chunk 0 with offset := 0 }] else []

theorem File.served_serves (file : File) : file.served.Serves file where
  regular := rfl
  opened := rfl
  fstat := rfl
  pread := fun _ _ _ => rfl
  others := by
    intro turn other member
    simp only [File.served] at member
    split at member
    · rename_i positive
      rw [List.mem_singleton] at member
      subst member
      exact ⟨rfl, positive, rfl⟩
    · cases member

/-- A file of three bytes, and reads within it, at its end and past its end. -/
def threeBytes : File := ⟨[0x7f, 0x45, 0x4c], by decide⟩

def threeByteReads : List ReadCall :=
  [⟨1, 8, by decide, threeBytes.served⟩, ⟨3, 8, by decide, threeBytes.served⟩,
    ⟨0, 2, by decide, threeBytes.served⟩, ⟨4, 1, by decide, threeBytes.served⟩]

theorem readOffset_run_transparent_threeBytes :
    (∀ call ∈ threeByteReads, call.os.Serves threeBytes) ∧
      ∃ last, runAll ReadCall.step threeByteReads DsoData.new =
        .ok ([(2, [0x45, 0x4c]), (0, []), (2, [0x7f, 0x45]), (-1, [])], last) := by
  have serves : ∀ call ∈ threeByteReads, call.os.Serves threeBytes := by
    simp [threeByteReads, File.served_serves]
  exact ⟨serves, readOffset_run_transparent threeBytes threeByteReads serves⟩

end DwBpf
