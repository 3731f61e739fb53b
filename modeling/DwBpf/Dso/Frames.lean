import DwBpf.Dso.Data

/-! # What a read leaves alone

Each function of a read changes some fields of the data and leaves the others as they
are, and what every turn of the loop and the look at the file's size keep, a whole
read keeps (`DwBpf.DsoData.readOffset_invariant`).
-/

namespace DwBpf

variable {os : Os} {data next : DsoData} {turn : Nat} {offset : U64} {ret : Int}
  {bytes : List Byte}

/-- Opening a file sets the descriptor and the status. -/
theorem tryToOpenDso_frame (ran : tryToOpenDso os data = .ok next) :
    ∃ fd status, next = { data with fd := fd, status := status } := by
  unfold tryToOpenDso at ran
  split at ran
  · cases ran
    exact ⟨_, _, rfl⟩
  · obtain ⟨fd, -, set⟩ := bind_eq_ok_iff.mp ran
    cases set
    exact ⟨_, _, rfl⟩

namespace DsoCache

theorem insert_frame (data : DsoData) (new : DsoCache) :
    ∃ tree, (insert data new).2 = { data with cache := tree } := by
  unfold insert
  split
  · exact ⟨_, rfl⟩
  · exact ⟨_, rfl⟩

/-- Another reader changes the tree and the chunks, and nothing that is known of the file. -/
theorem insertOther_frame (data : DsoData) (other : OtherRead) :
    ∃ tree allocated freed, insertOther data other =
      { data with cache := tree, allocated := allocated, freed := freed } := by
  let cache : DsoCache := { other.toChunkBytes with id := data.allocated, offset := other.offset }
  obtain ⟨tree, inserted⟩ := insert_frame { data with allocated := data.allocated + 1 } cache
  unfold insertOther
  dsimp only
  split
  · rename_i found
    rw [found] at inserted
    dsimp only at inserted
    rw [inserted]
    exact ⟨_, _, _, rfl⟩
  · rename_i linked
    rw [linked] at inserted
    dsimp only at inserted
    rw [inserted]
    exact ⟨_, _, _, rfl⟩

/-- Other readers change the cache and what is allocated and freed. -/
theorem others_frame (data : DsoData) (others : List OtherRead) :
    ∃ tree allocated freed, others.foldl insertOther data =
      { data with cache := tree, allocated := allocated, freed := freed } := by
  induction others generalizing data with
  | nil => exact ⟨_, _, _, rfl⟩
  | cons other others ih =>
      obtain ⟨_, _, _, inserted⟩ := insertOther_frame data other
      obtain ⟨tree, allocated, freed, rest⟩ := ih (insertOther data other)
      refine ⟨tree, allocated, freed, ?_⟩
      rw [List.foldl_cons, rest, inserted]

/-- A chunk that is read changes neither what is known of the file's size nor of its
sections. -/
theorem read_frame {size : U64}
    (ran : DsoCache.read os turn data offset size = .ok (ret, bytes, next)) :
    ∃ tree fd status allocated freed, next =
      { data with
        cache := tree, fd := fd, status := status, allocated := allocated, freed := freed } := by
  obtain ⟨opened, opens, rest⟩ := bind_eq_ok_iff.mp ran
  obtain ⟨fd, status, rfl⟩ := tryToOpenDso_frame opens
  dsimp only at rest
  split at rest
  · cases rest
    exact ⟨_, _, _, _, _, rfl⟩
  · split at rest
    · cases rest
      exact ⟨_, _, _, _, _, rfl⟩
    · split at rest
      · cases rest
        exact ⟨_, _, _, _, _, rfl⟩
      · rename_i chunk _ _
        obtain ⟨shared, allocated, freed, others⟩ := others_frame
          { data with allocated := data.allocated + 1, fd := fd, status := status } (os.others turn)
        rw [others] at rest
        obtain ⟨tree, inserted⟩ := insert_frame
          { data with
            cache := shared, fd := fd, status := status, allocated := allocated, freed := freed }
          { chunk with id := data.allocated, offset := chunkOffset offset }
        generalize insert _ _ = result at rest inserted
        obtain ⟨found, after⟩ := result
        dsimp only at inserted
        subst inserted
        cases rest
        cases found with
        | none =>
            dsimp only
            split
            · exact ⟨_, _, _, _, _, rfl⟩
            · exact ⟨_, _, _, _, _, rfl⟩
        | some old =>
            dsimp only
            split
            · exact ⟨_, _, _, _, _, rfl⟩
            · exact ⟨_, _, _, _, _, rfl⟩

end DsoCache

theorem dsoCacheRead_frame {size : U64}
    (ran : dsoCacheRead os turn data offset size = .ok (ret, bytes, next)) :
    ∃ tree fd status allocated freed, next =
      { data with
        cache := tree, fd := fd, status := status, allocated := allocated, freed := freed } := by
  unfold dsoCacheRead at ran
  split at ran
  · cases ran
    exact ⟨_, _, _, _, _, rfl⟩
  · exact DsoCache.read_frame ran

/-- The size of the file is found out by opening the file and asking for it. -/
theorem dataFileSize_frame {known : Bool} (ran : dataFileSize os data = .ok (known, next)) :
    ∃ fd status fileSize, next =
      { data with fd := fd, status := status, fileSize := fileSize } := by
  unfold dataFileSize at ran
  split at ran
  · cases ran
    exact ⟨_, _, _, rfl⟩
  · split at ran
    · cases ran
      exact ⟨_, _, _, rfl⟩
    · obtain ⟨opened, opens, rest⟩ := bind_eq_ok_iff.mp ran
      obtain ⟨fd, status, rfl⟩ := tryToOpenDso_frame opens
      split at rest
      · cases rest
        exact ⟨_, _, _, rfl⟩
      · split at rest
        · cases rest
          exact ⟨_, _, _, rfl⟩
        · cases rest
          exact ⟨_, _, _, rfl⟩

section Invariants

variable (invariant : DsoData → Prop) {count : Int}

/-- What every turn keeps, the loop keeps. -/
theorem cachedRead_invariant
    (kept : ∀ turn data offset size ret bytes next, invariant data →
      dsoCacheRead os turn data offset size = .ok (ret, bytes, next) → invariant next)
    (holds : invariant data) {size r : Nat} {written : List Byte}
    (ran : cachedRead os turn data offset size r written = .ok (count, bytes, next)) :
    invariant next := by
  fun_induction cachedRead os turn data offset size r written with
  | case1 => cases ran
  | case2 | case3 | case5 =>
      cases ran
      exact kept _ _ _ _ _ _ _ holds ‹_›
  | case4 => cases ran
  | case6 _ _ _ _ _ _ _ _ _ turned _ _ _ _ ih =>
      exact ih (kept _ _ _ _ _ _ _ holds turned) ran

/-- What every turn and the look at the file's size keep, a read keeps. -/
theorem DsoData.readOffset_invariant
    (kept : ∀ turn data offset size ret bytes next, invariant data →
      dsoCacheRead os turn data offset size = .ok (ret, bytes, next) → invariant next)
    (sized : ∀ data known next, invariant data → dataFileSize os data = .ok (known, next) →
      invariant next)
    (holds : invariant data) {size : Nat}
    (ran : data.readOffset os offset size = .ok (count, bytes, next)) : invariant next := by
  unfold readOffset at ran
  split at ran
  · cases ran
    exact holds
  · obtain ⟨⟨known, ready⟩, fileSize, rest⟩ := bind_eq_ok_iff.mp ran
    have holdsReady := sized data known ready holds fileSize
    dsimp only at rest
    split at rest
    · cases rest
      exact holdsReady
    · split at rest
      · cases rest
        exact holdsReady
      · split at rest
        · cases rest
          exact holdsReady
        · exact cachedRead_invariant invariant kept holdsReady rest

end Invariants

end DwBpf
