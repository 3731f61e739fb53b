import DwBpf.Unwind.Libunwind

/-! # The entries a walk leaves

`get_entries` writes the instruction pointer of the sample and then one entry for
each frame that libunwind steps to, as far as the depth allows. The entries are
`DwBpf.Unwinder.entries`, the array behind them is as it was, and their number is
the new depth (`DwBpf.getEntries_of_returned`).
-/

namespace DwBpf

/-- The entry for a frame: the address of the call, unless a signal arrived there. -/
def callSite (frame : U64 × Bool) : U64 := if frame.2 then frame.1 else frame.1 - 1

/-- The entries of a sample with the instruction pointer `ip`. -/
def Unwinder.entries (unwinder : Unwinder) (ip : U64) (depth : Nat) : List U64 :=
  ip :: if unwinder.initRemote = 0 then (unwinder.frames.take (depth - 1)).map callSite else []

/-- The entries written over the start of an array. -/
def overwrite (written ips : List U64) : List U64 := written ++ ips.drop written.length

/-- How many entries there are. -/
def Unwinder.count (unwinder : Unwinder) (depth : Nat) : Nat :=
  if unwinder.initRemote = 0 then min depth (unwinder.frames.length + 1) else 1

section Walk

variable {unwinder : Unwinder} {store served : Store} {info : UnwindInfo} {thread : Thread}
  {answers : List Answer} {depth : Nat} {ips : List U64} {ip : U64}

theorem Unwinder.length_entries (unwinder : Unwinder) (ip : U64) (positive : 1 ≤ depth) :
    (unwinder.entries ip depth).length = unwinder.count depth := by
  unfold Unwinder.entries Unwinder.count
  split
  · rw [List.length_cons, List.length_map, List.length_take]
    omega
  · rfl

theorem Unwinder.count_le (unwinder : Unwinder) (positive : 1 ≤ depth) :
    unwinder.count depth ≤ depth := by
  unfold Unwinder.count
  split
  · exact Nat.min_le_left ..
  · exact positive

/-- The loop writes behind the entries `written` before. -/
theorem stepFrames_append (frames : List (U64 × Bool)) (written rest : List U64)
    (begun : written.length ≤ depth) (room : depth ≤ (written ++ rest).length) :
    let added := (frames.take (depth - written.length)).map callSite
    stepFrames depth frames written.length (written ++ rest) =
      .ok (written.length + added.length, written ++ overwrite added rest) := by
  induction frames generalizing written rest with
  | nil => simp [stepFrames, overwrite]
  | cons frame frames ih =>
      obtain ⟨next, signal⟩ := frame
      rw [stepFrames]
      by_cases more : written.length < depth
      · rw [if_pos (by exact_mod_cast more)]
        obtain ⟨old, rest, rfl⟩ : ∃ old rest', rest = old :: rest' := by
          cases rest with
          | nil => rw [List.append_nil] at room; omega
          | cons old rest => exact ⟨old, rest, rfl⟩
        have inside : written.length < (written ++ old :: rest).length := by simp
        have placed : (written ++ old :: rest).set written.length (callSite (next, signal)) =
            (written ++ [callSite (next, signal)]) ++ rest := by simp
        have goOn := ih (written ++ [callSite (next, signal)]) rest (by simp; omega)
          (by simpa using room)
        have left : depth - written.length = depth - (written.length + 1) + 1 := by omega
        rw [writeIp, if_pos inside, ok_bind]
        change stepFrames depth frames (written.length + 1)
          ((written ++ old :: rest).set written.length (callSite (next, signal))) = _
        rw [List.length_append, List.length_singleton] at goOn
        rw [placed, goOn, left, List.take_succ_cons, List.map_cons]
        simp only [overwrite, List.length_cons, List.drop_succ_cons, List.append_assoc,
          List.cons_append, List.nil_append]
        rw [Nat.add_assoc, Nat.add_comm 1]
      · have full : depth - written.length = 0 := by omega
        rw [if_neg (by exact_mod_cast more), full]
        simp [overwrite]

/-- What `get_entries` returns when libunwind came back from its calls of the
callbacks. -/
theorem getEntries_of_returned (positive : 1 ≤ depth) (room : depth ≤ ips.length)
    (live : store.threads.get? info.thread = some thread) (created : thread.addrSpace = true)
    (returned : runAll (Request.step info) unwinder.requests store = .ok (answers, served)) :
    getEntries unwinder store info (some ⟨depth, some ips⟩) =
      .ok ((unwinder.initRemote, some ⟨unwinder.count depth,
        some (overwrite (unwinder.entries (info.uc.uregs .ip) depth) ips)⟩), served) := by
  obtain ⟨old, rest, rfl⟩ : ∃ old rest, ips = old :: rest := by
    cases ips with
    | nil => exact absurd room (by simp; omega)
    | cons old rest => exact ⟨old, rest, rfl⟩
  have first : writeIp (old :: rest) 0 (info.uc.uregs .ip) = .ok (info.uc.uregs .ip :: rest) := rfl
  rw [getEntries]
  dsimp only
  rw [if_neg (by omega), getEntriesInto, regValue_ip, ok_bind, first, ok_bind,
    deref_of_get? live, ok_bind, if_pos created, returned, ok_bind]
  dsimp only
  unfold Unwinder.entries
  by_cases started : unwinder.initRemote = 0
  · have walk := stepFrames_append unwinder.frames [info.uc.uregs .ip] rest positive room
    dsimp only [List.length_singleton, List.singleton_append] at walk
    have count : unwinder.count depth =
        1 + ((unwinder.frames.take (depth - 1)).map callSite).length := by
      rw [← unwinder.length_entries (info.uc.uregs .ip) positive, Unwinder.entries,
        if_pos started, List.length_cons, Nat.add_comm]
    rw [if_pos started, if_pos started, walk, ok_bind, count, started]
    rfl
  · rw [if_neg started, if_neg started, Unwinder.count, if_neg started]
    rfl

/-- Whether `get_entries` returns is up to the callbacks. -/
theorem getEntries_of_created (positive : 1 ≤ depth) (room : depth ≤ ips.length)
    (live : store.threads.get? info.thread = some thread) (created : thread.addrSpace = true) :
    getEntries unwinder store info (some ⟨depth, some ips⟩) = (do
      let (_, served) ← runAll (Request.step info) unwinder.requests store
      return ((unwinder.initRemote, some ⟨unwinder.count depth,
        some (overwrite (unwinder.entries (info.uc.uregs .ip) depth) ips)⟩), served)) := by
  cases returned : runAll (Request.step info) unwinder.requests store with
  | ok result => exact getEntries_of_returned positive room live created returned
  | error failure =>
      cases ips with
      | nil => exact absurd room (by simp; omega)
      | cons old rest =>
          rw [getEntries]
          dsimp only
          rw [if_neg (by omega), getEntriesInto, regValue_ip, ok_bind]
          change (deref store.threads info.thread >>= _) >>= _ = _
          rw [deref_of_get? live, ok_bind, if_pos created, returned]
          rfl

/-- Without an address space the depth is left, and one entry is written. -/
theorem getEntries_of_missing (positive : 1 ≤ depth) (room : depth ≤ ips.length)
    (live : store.threads.get? info.thread = some thread) (missing : thread.addrSpace = false) :
    getEntries unwinder store info (some ⟨depth, some ips⟩) =
      .ok ((-1, some ⟨depth, some (overwrite [info.uc.uregs .ip] ips)⟩), store) := by
  cases ips with
  | nil => exact absurd room (by simp; omega)
  | cons old rest =>
      rw [getEntries]
      dsimp only
      rw [if_neg (by omega), getEntriesInto, regValue_ip, ok_bind]
      change (deref store.threads info.thread >>= _) >>= _ = _
      rw [deref_of_get? live, ok_bind, missing]
      rfl

theorem getElem?_overwrite_of_le {written : List U64} {index : Nat}
    (behind : written.length ≤ index) : (overwrite written ips)[index]? = ips[index]? := by
  rw [overwrite, List.getElem?_append_right behind, List.getElem?_drop]
  congr 1
  omega

theorem getElem?_overwrite_of_lt {written : List U64} {index : Nat}
    (inside : index < written.length) : (overwrite written ips)[index]? = written[index]? :=
  List.getElem?_append_left inside

/-- Into a stacktrace of depth `limit` with room for as many entries, `get_entries`
writes the instruction pointer of the sample and the call sites of the first frames,
and nothing behind them. Without a walk it writes the first entry only. -/
theorem getEntries_fills {limit : Int} (positive : 1 ≤ limit) (room : limit ≤ ips.length)
    (live : store.threads.get? info.thread = some thread) (created : thread.addrSpace = true)
    (returned : runAll (Request.step info) unwinder.requests store = .ok (answers, served)) :
    ∃ (depth : Nat) (left : List U64),
      getEntries unwinder store info (some ⟨limit, some ips⟩) =
        .ok ((unwinder.initRemote, some ⟨depth, some left⟩), served) ∧
      (unwinder.initRemote = 0 → (depth : Int) = min limit (unwinder.frames.length + 1)) ∧
      (unwinder.initRemote ≠ 0 → depth = 1) ∧
      left[0]? = some (info.uc.uregs .ip) ∧
      (∀ index ip signal, unwinder.frames[index]? = some (ip, signal) → index + 1 < depth →
        left[index + 1]? = some (if signal then ip else ip - 1)) ∧
      ∀ index, depth ≤ index → left[index]? = ips[index]? := by
  obtain ⟨depth, rfl⟩ := Int.eq_ofNat_of_zero_le (Int.le_trans Int.one_nonneg positive)
  have positive' : 1 ≤ depth := by exact_mod_cast positive
  have length := unwinder.length_entries (info.uc.uregs .ip) positive'
  refine ⟨unwinder.count depth, overwrite (unwinder.entries (info.uc.uregs .ip) depth) ips,
    getEntries_of_returned positive' (by exact_mod_cast room) live created returned,
    ?_, ?_, rfl, ?_, ?_⟩
  · intro started
    rw [Unwinder.count, if_pos started]
    omega
  · intro failed
    rw [Unwinder.count, if_neg failed]
  · intro index next signal frame below
    rw [getElem?_overwrite_of_lt (length ▸ below)]
    have started : unwinder.initRemote = 0 := by
      by_contra failed
      rw [Unwinder.count, if_neg failed] at below
      omega
    have within := unwinder.count_le positive'
    rw [Unwinder.entries, if_pos started, List.getElem?_cons_succ, List.getElem?_map,
      List.getElem?_take_of_lt (by omega), frame]
    rfl
  · intro index behind
    exact getElem?_overwrite_of_le (length ▸ behind)

end Walk

/-- A walk over a call, a signal frame and another call. -/
def Unwinder.threeFrames : Unwinder :=
  ⟨[.accessReg 7 false], 0, [(0x401005, false), (0x402000, true), (0x403000, false)]⟩

/-- A stacktrace for three entries is filled before the last frame is reached. -/
theorem getEntries_fills_three :
    ∃ store info left, getEntries .threeFrames store info (some ⟨3, some [1, 2, 3, 4]⟩) =
        .ok ((0, some ⟨3, some left⟩), store) ∧ info.uc.uregs .ip = 0x400000 ∧
      left[0]? = some 0x400000 ∧ left[1]? = some 0x401004 ∧ left[2]? = some 0x402000 ∧
      left[3]? = some 4 := by
  let info : UnwindInfo := ⟨⟨0, 1, 1, fun _ => 0x400000, fun _ => 0, 0, fun _ => 0⟩, ⟨0⟩⟩
  let thread : Thread := { Thread.new 1 1 with addrSpace := true }
  let store : Store := { Store.empty with threads := Heap.empty.alloc thread }
  have live : store.threads.get? info.thread = some thread := rfl
  have returned : runAll (Request.step info) Unwinder.threeFrames.requests store =
      .ok ([(0, some 0x400000)], store) := rfl
  have room : (3 : Int) ≤ ([1, 2, 3, 4] : List U64).length := by decide
  obtain ⟨depth, left, ran, filled, -, first, frames, behind⟩ :=
    getEntries_fills (by decide) room live rfl returned
  obtain rfl : depth = 3 := by exact_mod_cast filled rfl
  refine ⟨store, info, left, ran, rfl, first, ?_, ?_, behind 3 (Nat.le_refl 3)⟩
  · exact frames 0 0x401005 false rfl (by decide)
  · exact frames 1 0x402000 true rfl (by decide)

end DwBpf
