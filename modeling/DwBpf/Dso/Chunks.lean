import DwBpf.Dso.Frames
import DwBpf.Foundation.RedBlack
import DwBpf.Unwind.Libunwind

/-! # The tree of the chunks of a dso is balanced

`dso_cache__insert` is the only function that changes the tree. What other readers link
while a chunk is read goes through it too, so every read of a dso keeps the tree balanced
(`DwBpf.DsoData.balanced_readOffset`), and so does whatever a callback of libunwind reads
there (`DwBpf.balanced_readUnwindSpecEhFrame`).
-/

namespace DwBpf

variable {os : Os} {data next : DsoData} {turn : Nat} {offset : U64} {ret : Int}
  {bytes : List Byte}

namespace DsoCache

theorem balanced_insert (balanced : data.cache.Balanced) (new : DsoCache) :
    (insert data new).2.cache.Balanced := by
  unfold insert
  split
  · exact balanced
  · exact Tree.balanced_link balanced ‹_› new

/-- A chunk that another reader links keeps the tree balanced. -/
theorem balanced_insertOther (balanced : data.cache.Balanced) (other : OtherRead) :
    (insertOther data other).cache.Balanced := by
  let cache : DsoCache := { other.toChunkBytes with id := data.allocated, offset := other.offset }
  have inserted := @balanced_insert { data with allocated := data.allocated + 1 } balanced cache
  unfold insertOther
  dsimp only
  split
  case h_1 found =>
    rw [found] at inserted
    exact inserted
  case h_2 linked =>
    rw [linked] at inserted
    exact inserted

theorem balanced_others (balanced : data.cache.Balanced) (others : List OtherRead) :
    (others.foldl insertOther data).cache.Balanced := by
  induction others generalizing data with
  | nil => exact balanced
  | cons other others ih => exact ih (balanced_insertOther balanced other)

theorem balanced_read {size : U64} (balanced : data.cache.Balanced)
    (ran : DsoCache.read os turn data offset size = .ok (ret, bytes, next)) :
    next.cache.Balanced := by
  obtain ⟨opened, opens, rest⟩ := bind_eq_ok_iff.mp ran
  obtain ⟨fd, status, rfl⟩ := tryToOpenDso_frame opens
  dsimp only at rest
  split at rest
  · cases rest
    exact balanced
  · split at rest
    · cases rest
      exact balanced
    · split at rest
      · cases rest
        exact balanced
      · rename_i chunk _ _
        have shared := @balanced_others
          { data with allocated := data.allocated + 1, fd := fd, status := status } balanced
          (os.others turn)
        have inserted := balanced_insert shared
          { chunk with id := data.allocated, offset := chunkOffset offset }
        generalize insert _ _ = result at rest inserted
        obtain ⟨found, after⟩ := result
        cases rest
        cases found with
        | none =>
            dsimp only
            split
            · exact inserted
            · exact inserted
        | some old =>
            dsimp only
            split
            · exact inserted
            · exact inserted

end DsoCache

theorem balanced_dsoCacheRead {size : U64} (balanced : data.cache.Balanced)
    (ran : dsoCacheRead os turn data offset size = .ok (ret, bytes, next)) :
    next.cache.Balanced := by
  unfold dsoCacheRead at ran
  split at ran
  · cases ran
    exact balanced
  · exact DsoCache.balanced_read balanced ran

namespace DsoData

theorem balanced_readOffset {size : Nat} {count : Int} (balanced : data.cache.Balanced)
    (ran : data.readOffset os offset size = .ok (count, bytes, next)) : next.cache.Balanced := by
  refine readOffset_invariant (fun data => data.cache.Balanced) ?_ ?_ balanced ran
  · intro turn data offset size ret bytes next balanced ran
    exact balanced_dsoCacheRead balanced ran
  · intro data known next balanced ran
    obtain ⟨fd, status, fileSize, rfl⟩ := dataFileSize_frame ran
    exact balanced

theorem balanced_readBytes {size : Nat} {read : Int × List Byte} (balanced : data.cache.Balanced)
    (ran : data.readBytes os offset size = .ok (read, next)) : next.cache.Balanced := by
  obtain ⟨⟨count, bytes, after⟩, reads, done⟩ := bind_eq_ok_iff.mp ran
  cases done
  exact balanced_readOffset balanced reads

theorem balanced_getFd {fd : Option Nat} (balanced : data.cache.Balanced)
    (ran : data.getFd os = .ok (fd, next)) : next.cache.Balanced := by
  unfold getFd at ran
  split at ran
  · cases ran
    exact balanced
  · obtain ⟨opened, opens, done⟩ := bind_eq_ok_iff.mp ran
    obtain ⟨fd, status, rfl⟩ := tryToOpenDso_frame opens
    cases done
    exact balanced

end DsoData

/-- Looking up the section leaves the tree as it is. -/
theorem balanced_ehFrameHdrOffset {elf : ElfAnswers} {found : Option U64}
    (balanced : data.cache.Balanced) (ran : ehFrameHdrOffset os elf data = .ok (found, next)) :
    next.cache.Balanced := by
  unfold ehFrameHdrOffset at ran
  split at ran
  · cases ran
    exact balanced
  · obtain ⟨⟨fd, after⟩, opens, rest⟩ := bind_eq_ok_iff.mp ran
    have kept := DsoData.balanced_getFd balanced opens
    dsimp only at rest
    split at rest
    · cases rest
      exact kept
    · cases rest
      exact kept

/-- Reading the header of the unwind table goes through the cache. -/
theorem balanced_readUnwindSpecEhFrame {elf : ElfAnswers} {spec : Option UnwindSpec}
    (balanced : data.cache.Balanced)
    (ran : readUnwindSpecEhFrame os elf data = .ok (spec, next)) : next.cache.Balanced := by
  obtain ⟨⟨found, after⟩, looked, rest⟩ := bind_eq_ok_iff.mp ran
  have kept := balanced_ehFrameHdrOffset balanced looked
  cases found with
  | none =>
      cases rest
      exact kept
  | some offset =>
      dsimp only at rest
      split at rest
      · cases rest
        exact kept
      · obtain ⟨⟨⟨count, hdr⟩, last⟩, reads, rest⟩ := bind_eq_ok_iff.mp rest
        have kept := DsoData.balanced_readBytes kept reads
        dsimp only at rest
        split at rest
        · cases rest
          exact kept
        · cases rest
          exact kept

end DwBpf
