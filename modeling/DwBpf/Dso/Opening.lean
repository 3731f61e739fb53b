import DwBpf.Dso.Frames

/-! # Opening the file of a dso

A dso is opened when its data are first asked for, and until then nothing is known
of its file (`DwBpf.DsoData.Dormant`). From such data a read returns, whatever the
operating system answers, exactly when the file is open or can be opened
(`DwBpf.DsoData.Openable`); else an assertion fails.
-/

namespace DwBpf

namespace DsoData

/-- Nothing is known of a file that is not open. -/
def Dormant (data : DsoData) : Prop :=
  data.fd = none → data.status = .unknown ∧ data.fileSize = 0 ∧ data.ehFrameHdrOffset = 0

/-- The file is open, or the operating system opens it. -/
def Openable (os : Os) (data : DsoData) : Prop :=
  data.fd ≠ none ∨ (os.regular = true ∧ os.opened ≠ none)

theorem dormant_new : DsoData.new.Dormant := fun _ => ⟨rfl, rfl, rfl⟩

theorem dormant_of_open {data : DsoData} (isOpen : data.fd ≠ none) : data.Dormant :=
  fun closed => absurd closed isOpen

end DsoData

/-- A failed assertion of `dso.c`. -/
def FailsInDso {α : Type} (outcome : Except Fault α) : Prop :=
  ∃ failed, outcome = .error (.assertion failed) ∧ failed.file = .dso

theorem FailsInDso.bind {α β : Type} {first : Except Fault α} (fails : FailsInDso first)
    (next : α → Except Fault β) : FailsInDso (first >>= next) := by
  obtain ⟨failed, failure, file⟩ := fails
  exact ⟨failed, by rw [failure]; rfl, file⟩

variable {os : Os} {data : DsoData}

theorem tryToOpenDso_of_open (isOpen : data.fd ≠ none) : tryToOpenDso os data = .ok data := by
  unfold tryToOpenDso
  cases fd : data.fd with
  | none => exact absurd fd isOpen
  | some fd => rfl

/-- A file that is open or can be opened is open afterwards. -/
theorem tryToOpenDso_ok (can : data.Openable os) :
    ∃ next, tryToOpenDso os data = .ok next ∧ next.fd ≠ none := by
  by_cases isOpen : data.fd = none
  · obtain isOpen' | ⟨regular, opened⟩ := can
    · exact absurd isOpen isOpen'
    · cases answer : os.opened with
      | none => exact absurd answer opened
      | some fd =>
          refine ⟨{ data with fd := some fd, status := .ok }, ?_, nofun⟩
          simp only [tryToOpenDso, isOpen, openDso, regular, ↓reduceIte, doOpen, answer, ok_bind,
            Option.isSome_some, pure_eq_ok]
  · exact ⟨data, tryToOpenDso_of_open isOpen, isOpen⟩

/-- An assertion of `dso.c` fails for a file that cannot be opened. -/
theorem tryToOpenDso_fails (cannot : ¬ data.Openable os) : FailsInDso (tryToOpenDso os data) := by
  rw [DsoData.Openable, not_or, not_not] at cannot
  unfold tryToOpenDso
  rw [cannot.1]
  refine FailsInDso.bind ?_ _
  unfold openDso
  split
  · rename_i regular
    unfold doOpen
    cases answer : os.opened with
    | none => exact ⟨.fileOpened, rfl, rfl⟩
    | some fd => exact absurd ⟨regular, by rw [answer]; nofun⟩ cannot.2
  · exact ⟨.regularFile, rfl, rfl⟩

theorem openable_of_opens (opens : tryToOpenDso os data = .ok next) : data.Openable os := by
  by_contra cannot
  obtain ⟨failure, failed, -⟩ := tryToOpenDso_fails cannot
  cases opens.symm.trans failed

theorem fd_of_opens (opens : tryToOpenDso os data = .ok next) : next.fd ≠ none := by
  obtain ⟨opened, opens', isOpen⟩ := tryToOpenDso_ok (openable_of_opens opens)
  cases opens.symm.trans opens'
  exact isOpen

/-- How the size of the file is found out. -/
theorem dataFileSize_cases (os : Os) (usable : data.status ≠ .error) :
    (data.fileSize ≠ 0 ∧ dataFileSize os data = .ok (true, data)) ∨
    (data.fileSize = 0 ∧ ¬ data.Openable os ∧ ∃ failure, dataFileSize os data = .error failure) ∨
    (data.fileSize = 0 ∧ os.fstat = none ∧ ∃ next, dataFileSize os data = .ok (false, next)) ∨
    ∃ size next, data.fileSize = 0 ∧ data.Openable os ∧ os.fstat = some size ∧
      dataFileSize os data = .ok (true, next) ∧ next.fileSize = size ∧
      next.cache = data.cache ∧ next.Openable os := by
  unfold dataFileSize
  by_cases unknown : data.fileSize = 0
  · rw [if_neg (not_not_intro unknown), if_neg usable]
    by_cases openable : data.Openable os
    · obtain ⟨opened, opens, isOpen⟩ := tryToOpenDso_ok openable
      have same : opened.cache = data.cache := by
        obtain ⟨_, _, rfl⟩ := tryToOpenDso_frame opens
        rfl
      rw [opens, ok_bind, if_neg isOpen]
      cases answer : os.fstat with
      | none => exact .inr (.inr (.inl ⟨unknown, rfl, _, rfl⟩))
      | some size =>
          exact .inr (.inr (.inr ⟨size, _, unknown, openable, rfl, rfl, rfl, same, .inl isOpen⟩))
    · obtain ⟨failure, failed, -⟩ := tryToOpenDso_fails openable
      rw [failed]
      exact .inr (.inl ⟨unknown, openable, _, rfl⟩)
  · rw [if_pos unknown]
    exact .inl ⟨unknown, rfl⟩

/-- No copy from a chunk exceeds the size asked for. -/
theorem DsoCache.toNat_memcpy_le (cache : DsoCache) (offset : U64) {size : Nat}
    (small : size < 2 ^ 63) : (cache.memcpy offset (BitVec.ofNat 64 size)).1.toNat ≤ size := by
  have wide : (BitVec.ofNat 64 size).toNat = size := by
    rw [BitVec.toNat_ofNat, Nat.mod_eq_of_lt (by omega)]
  simp only [DsoCache.memcpy]
  split
  · rename_i less
    rw [BitVec.lt_def, wide] at less
    exact Nat.le_of_lt less
  · rw [wide]

theorem DsoCache.toInt_memcpy_of_small (cache : DsoCache) (offset : U64) {size : Nat}
    (small : size < 2 ^ 63) :
    (cache.memcpy offset (BitVec.ofNat 64 size)).1.toInt =
      (cache.memcpy offset (BitVec.ofNat 64 size)).1.toNat := by
  have bound := cache.toNat_memcpy_le offset small
  exact BitVec.toInt_eq_toNat_of_lt (by omega)

theorem DsoCache.memcpy_le (cache : DsoCache) (offset : U64) {size : Nat} (small : size < 2 ^ 63) :
    (cache.memcpy offset (BitVec.ofNat 64 size)).1.toInt.toNat ≤ size := by
  rw [cache.toInt_memcpy_of_small offset small, Int.toNat_natCast]
  exact cache.toNat_memcpy_le offset small

/-- On an open file a turn of the loop returns, and copies no more than was asked for. -/
theorem dsoCacheRead_of_open (isOpen : data.fd ≠ none) (turn : Nat) (offset : U64) {size : Nat}
    (small : size < 2 ^ 63) :
    ∃ ret bytes next, dsoCacheRead os turn data offset (BitVec.ofNat 64 size) =
      .ok (ret, bytes, next) ∧ next.fd ≠ none ∧ ret.toNat ≤ size := by
  unfold dsoCacheRead
  split
  · exact ⟨_, _, data, rfl, isOpen, DsoCache.memcpy_le _ _ small⟩
  · have opened : tryToOpenDso os { data with allocated := data.allocated + 1 } = .ok _ :=
      tryToOpenDso_of_open isOpen
    simp only [DsoCache.read, opened, ok_bind, isOpen, ↓reduceIte]
    split
    · exact ⟨_, _, _, rfl, isOpen, Nat.zero_le _⟩
    · rename_i chunk _
      split
      · exact ⟨_, _, _, rfl, isOpen, Nat.zero_le _⟩
      · have stillOpen : ∀ new : DsoCache, (DsoCache.insert ((os.others turn).foldl
            DsoCache.insertOther { data with allocated := data.allocated + 1 }) new).2.fd ≠
              none := by
          intro new
          obtain ⟨tree, inserted⟩ := DsoCache.insert_frame ((os.others turn).foldl
            DsoCache.insertOther { data with allocated := data.allocated + 1 }) new
          obtain ⟨_, _, _, others⟩ := DsoCache.others_frame
            { data with allocated := data.allocated + 1 } (os.others turn)
          rw [inserted, others]
          exact isOpen
        specialize stillOpen { chunk with id := data.allocated, offset := chunkOffset offset }
        generalize DsoCache.insert _ _ = inserted at stillOpen ⊢
        obtain ⟨old, after⟩ := inserted
        cases old with
        | none =>
            refine ⟨_, _, _, rfl, ?_, DsoCache.memcpy_le _ _ small⟩
            dsimp only
            split <;> exact stillOpen
        | some old =>
            refine ⟨_, _, _, rfl, ?_, DsoCache.memcpy_le _ _ small⟩
            dsimp only
            split <;> exact stillOpen

theorem cachedRead_of_open (isOpen : data.fd ≠ none) (turn : Nat) (offset : U64) {size : Nat}
    (small : size < 2 ^ 63) (r : Nat) (written : List Byte) :
    ∃ ret bytes next, cachedRead os turn data offset size r written = .ok (ret, bytes, next) ∧
      next.fd ≠ none := by
  induction size using Nat.strongRecOn generalizing turn data offset r written with
  | ind size ih =>
      obtain ⟨ret, bytes, next, ran, nextOpen, bound⟩ :=
        dsoCacheRead_of_open isOpen turn offset small
      rw [cachedRead, ran]
      dsimp only
      split
      · exact ⟨_, _, next, rfl, nextOpen⟩
      · split
        · exact ⟨_, _, next, rfl, nextOpen⟩
        · rw [if_neg (by omega)]
          split
          · exact ⟨_, _, next, rfl, nextOpen⟩
          · exact ih (size - ret.toNat) (by omega) nextOpen _ _ (by omega) _ _

namespace DsoData

/-- Work on the data returns exactly when they are openable, and leaves them so. -/
structure Returns {α : Type} (os : Os) (data : DsoData)
    (outcome : Except Fault (α × DsoData)) : Prop where
  ok : data.Openable os → ∃ result next, outcome = .ok (result, next) ∧ next.Dormant ∧
    next.Openable os
  fails : ¬ data.Openable os → FailsInDso outcome

theorem Returns.dormant {α : Type} {outcome : Except Fault (α × DsoData)} {result : α}
    {next : DsoData} (returns : Returns os data outcome) (ran : outcome = .ok (result, next)) :
    next.Dormant := by
  by_cases openable : data.Openable os
  · obtain ⟨result', next', same, dormant, -⟩ := returns.ok openable
    cases ran.symm.trans same
    exact dormant
  · obtain ⟨failed, same, -⟩ := returns.fails openable
    cases ran.symm.trans same

theorem returns_pure {α : Type} (dormant : data.Dormant) (openable : data.Openable os)
    (result : α) : Returns os data (.ok (result, data)) :=
  ⟨fun _ => ⟨result, data, rfl, dormant, openable⟩, fun cannot => absurd openable cannot⟩

theorem Returns.bind {α β : Type} {first : Except Fault (α × DsoData)}
    {next : α × DsoData → Except Fault (β × DsoData)} (returns : Returns os data first)
    (later : ∀ result data, data.Dormant → data.Openable os →
      Returns os data (next (result, data))) : Returns os data (first >>= next) := by
  refine ⟨fun openable => ?_, fun cannot => (returns.fails cannot).bind next⟩
  obtain ⟨result, middle, ran, dormant, stillOpenable⟩ := returns.ok openable
  rw [ran]
  exact (later result middle dormant stillOpenable).ok stillOpenable

/-- Nothing that is dormant is known to be unusable before it was opened. -/
theorem Dormant.usable (dormant : data.Dormant) (cannot : ¬ data.Openable os) :
    data.status ≠ .error ∧ data.fileSize = 0 ∧ data.ehFrameHdrOffset = 0 := by
  rw [Openable, not_or, not_not] at cannot
  obtain ⟨unknown, fileSize, hdrOffset⟩ := dormant cannot.1
  exact ⟨by rw [unknown]; nofun, fileSize, hdrOffset⟩

/-- A descriptor is returned of a file that is open. -/
theorem getFd_ok (dormant : data.Dormant) (openable : data.Openable os) :
    ∃ fd next, data.getFd os = .ok (fd, next) ∧ next.Dormant ∧ next.Openable os ∧
      (fd ≠ none → next.fd ≠ none) := by
  unfold getFd
  split
  · exact ⟨none, data, rfl, dormant, openable, fun isOpen => absurd rfl isOpen⟩
  · obtain ⟨next, opened, isOpen⟩ := tryToOpenDso_ok openable
    rw [opened]
    exact ⟨next.fd, next, rfl, dormant_of_open isOpen, .inl isOpen, id⟩

theorem getFd_fails (dormant : data.Dormant) (cannot : ¬ data.Openable os) :
    FailsInDso (data.getFd os) := by
  rw [getFd, if_neg (dormant.usable cannot).1]
  exact (tryToOpenDso_fails cannot).bind _

/-- A file whose size is known or asked for is open or opened first. -/
theorem dataFileSize_ok (dormant : data.Dormant) (usable : data.status ≠ .error)
    (openable : data.Openable os) :
    ∃ known next, dataFileSize os data = .ok (known, next) ∧ next.fd ≠ none := by
  unfold dataFileSize
  by_cases sized : data.fileSize = 0
  · obtain ⟨next, opened, isOpen⟩ := tryToOpenDso_ok openable
    simp only [sized, ne_eq, not_true_eq_false, ↓reduceIte, usable, opened, ok_bind, isOpen]
    cases os.fstat with
    | none => exact ⟨_, _, rfl, isOpen⟩
    | some size => exact ⟨_, _, rfl, isOpen⟩
  · rw [if_pos sized]
    exact ⟨_, _, rfl, fun closed => sized (dormant closed).2.1⟩

/-- A read of a file that is open or can be opened returns. -/
theorem readOffset_ok (dormant : data.Dormant) (openable : data.Openable os) (offset : U64)
    {size : Nat} (small : size < 2 ^ 63) :
    ∃ count bytes next, data.readOffset os offset size = .ok (count, bytes, next) ∧
      next.Dormant ∧ next.Openable os := by
  unfold readOffset
  split
  · exact ⟨_, _, data, rfl, dormant, openable⟩
  · rename_i usable
    obtain ⟨sized, next, found, isOpen⟩ := dataFileSize_ok dormant usable openable
    simp only [dataReadOffset, found, ok_bind]
    split
    · exact ⟨_, _, next, rfl, dormant_of_open isOpen, .inl isOpen⟩
    · split
      · exact ⟨_, _, next, rfl, dormant_of_open isOpen, .inl isOpen⟩
      · split
        · exact ⟨_, _, next, rfl, dormant_of_open isOpen, .inl isOpen⟩
        · obtain ⟨ret, bytes, last, ran, stillOpen⟩ :=
            cachedRead_of_open isOpen 0 offset small 0 []
          exact ⟨ret, bytes, last, ran, dormant_of_open stillOpen, .inl stillOpen⟩

theorem readOffset_fails (dormant : data.Dormant) (cannot : ¬ data.Openable os) (offset : U64)
    (size : Nat) : FailsInDso (data.readOffset os offset size) := by
  obtain ⟨usable, unsized, -⟩ := dormant.usable cannot
  rw [readOffset, if_neg usable]
  refine FailsInDso.bind ?_ _
  rw [dataFileSize, if_neg (not_not_intro unsized), if_neg usable]
  exact (tryToOpenDso_fails cannot).bind _

end DsoData

end DwBpf
