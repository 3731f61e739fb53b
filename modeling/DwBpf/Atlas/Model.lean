import DwBpf.Event.Disk
import DwBpf.Event.Enumeration
import DwBpf.Unwind.Walk

/-! # What the library is for

A book of maps: the ranges that were recorded of each process, and the name of each of its
threads. `DwBpf.Atlas.step` says what a call is to answer from such a book and the files
of a disk, without objects and counters, trees, tables and caches.
-/

namespace DwBpf

/-- The recorded ranges of each process, oldest first, the name of each thread, and whether
libunwind has an address space for it. -/
structure Atlas where
  ranges : Pid → List Range
  names : Pid → Comm
  prepared : Pid → Bool

instance (range : Range) (addr : U64) : Decidable (range.Covers addr) :=
  inferInstanceAs (Decidable (_ ∧ _))

/-- Where the file has what the range shows at an address. -/
def Range.offset (range : Range) (addr : U64) : U64 := addr - range.start + range.pgoff

/-- The word of a file at an offset, if the file is that long. -/
def Disk.word (disk : Disk) (name : List Char) (offset : U64) : Option U64 :=
  if offset.toNat + 8 ≤ (disk.files name).size then
    some (littleEndian 64 (((disk.files name).bytes.drop offset.toNat).take 8))
  else none

/-- The infos that a walk gives to the callback, and the status it returns. -/
def PhdrInfo.visit (callback : Nat → PhdrInfo → Int) : List PhdrInfo → Nat → Int × List PhdrInfo
  | [], _ => (0, [])
  | info :: rest, turn =>
      if callback turn info < 0 then (-1, [info])
      else
        let (status, infos) := visit callback rest (turn + 1)
        (status, info :: infos)

namespace Atlas

def empty : Atlas := ⟨fun _ => [], fun _ _ => 0, fun _ => false⟩

/-- The recorded range of a process around an address. -/
def rangeAt (atlas : Atlas) (tgid : Pid) (addr : U64) : Option Range :=
  (atlas.ranges tgid).find? fun range => range.Covers addr

/-- The word that a process has of its files at an address. -/
def memory (disk : Disk) (atlas : Atlas) (tgid : Pid) (addr : U64) : Answer :=
  match atlas.rangeAt tgid addr with
  | none => (-1, some 0)
  | some range =>
      match disk.word range.name (range.offset addr) with
      | none => (1, some 0)
      | some word => (0, some word)

/-- Whether libunwind gets a table for an address. -/
def procInfo (disk : Disk) (atlas : Atlas) (tgid : Pid) (ip address : U64) (searched : Int) :
    Answer :=
  match atlas.rangeAt tgid ip with
  | none => (negEinval, none)
  | some range => if (disk.spec address range.name).isSome then (searched, none)
      else (negEinval, none)

/-- What a callback tells libunwind about a sample. -/
def answer (disk : Disk) (atlas : Atlas) (uc : UnwindCtx) : Request → Except Fault Answer
  | .findProcInfo ip _ elf searched => .ok (atlas.procInfo disk uc.tgid ip elf.address searched)
  | .accessMem addr write _ =>
      if write ∨ uc.size.toInt ≤ 0 then .ok (0, some 0)
      else if addr + 8 < addr then .ok (negEinval, none)
      else if uc.snapshots (uc.uregs .sp) addr then do
        let value ← uc.word (addr - uc.uregs .sp).toNat
        return (0, some value)
      else .ok (atlas.memory disk uc.tgid addr)
  | .accessReg regnum write =>
      if write then .ok (0, none)
      else do
        let value ← regValue uc.uregs (archRegId regnum)
        return (0, some value)

/-- A range goes behind those of its process. Its thread needs an address space. -/
def record (event : MmapEvent) (created : Bool) (atlas : Atlas) : Except Fault Atlas :=
  if atlas.prepared event.tid || created then
    .ok { atlas with
      ranges := Function.update atlas.ranges event.tgid (atlas.ranges event.tgid ++ [event.range])
      prepared := Function.update atlas.prepared event.tid true }
  else .error (.assertion .mapInserted)

/-- Whether the sample has the name that its thread had before. -/
def named (atlas : Atlas) (uc : UnwindCtx) : Bool :=
  decide (uc.name.text = (atlas.names uc.tid).text)

/-- A sample of a thread was seen. -/
def seen (uc : UnwindCtx) (created : Bool) (atlas : Atlas) : Atlas :=
  { atlas with
    names := if atlas.named uc then Function.update atlas.names uc.tid uc.name.copy
      else atlas.names
    prepared := Function.update atlas.prepared uc.tid (atlas.prepared uc.tid || created) }

/-- The status of a walk over a stack, and what it leaves of the stacktrace. -/
def entries (disk : Disk) (atlas : Atlas) (uc : UnwindCtx) (unwinder : Unwinder) :
    Option Stacktrace → Except Fault (Int × Option Stacktrace)
  | none => .ok (einval, none)
  | some st =>
      match st.ips with
      | none => .ok (einval, some st)
      | some ips =>
          let ip := uc.uregs .ip
          if st.depth < 1 then .ok (einval, some st)
          else if atlas.prepared uc.tid then do
            let _ ← unwinder.requests.mapM (atlas.answer disk uc)
            return (unwinder.initRemote, some ⟨unwinder.count st.depth.toNat,
              some (overwrite (unwinder.entries ip st.depth.toNat) ips)⟩)
          else .ok (-1, some ⟨st.depth, some (overwrite [ip] ips)⟩)

/-- A sample is resolved. -/
def resolve (disk : Disk) (st : Option Stacktrace) (uc : UnwindCtx) (created : Bool)
    (unwinder : Unwinder) (atlas : Atlas) : Except Fault (Resolved × Atlas) := do
  let (status, st) ← (atlas.seen uc created).entries disk uc unwinder st
  return (⟨status, st, atlas.named uc⟩, atlas.seen uc created)

/-- What a visit of a thread does. -/
def visit (disk : Disk) : Visit → Atlas → Except Fault (Unit × Atlas)
  | .fault failure, _ => .error failure
  | .record event created, atlas => do
      let atlas ← atlas.record event created
      return ((), atlas)
  | .resolve st uc created unwinder, atlas => do
      let (_, atlas) ← atlas.resolve disk st uc created unwinder
      return ((), atlas)
  | .iterate _ _, atlas => .ok ((), atlas)

/-- What a call answers, and what it leaves in the book. -/
def step (disk : Disk) : Call → Atlas → Except Fault (Reply × Atlas)
  | .threadMap _ _ none _ _, atlas => .ok (.mapped (-1), atlas)
  | .threadMap tgid tid (some text) scratch created, atlas => do
      let (_, atlas) ← runAll (visit disk)
        (Call.threadMap tgid tid (some text) scratch created).visits atlas
      return (.mapped 0, atlas)
  | .resolveCallchain st uc created unwinder, atlas => do
      let (result, atlas) ← atlas.resolve disk st uc created unwinder
      return (.resolved result, atlas)
  | .dlIteratePhdr tgid callback, atlas =>
      let (status, infos) := PhdrInfo.visit callback ((atlas.ranges tgid).map Range.info) 0
      .ok (.iterated status infos, atlas)

variable {atlas : Atlas} {tgid : Pid} {addr : U64} {range : Range}

theorem rangeAt_eq_some (found : atlas.rangeAt tgid addr = some range) :
    range ∈ atlas.ranges tgid ∧ range.Covers addr := by
  have covers := List.find?_some found
  exact ⟨List.mem_of_find?_eq_some found, of_decide_eq_true covers⟩

theorem rangeAt_eq_none :
    atlas.rangeAt tgid addr = none ↔ ∀ range ∈ atlas.ranges tgid, ¬ range.Covers addr := by
  simp [rangeAt]

/-- Ranges of one layout that cover the same address are the same. -/
theorem rangeAt_of_covers {layout : List Range} (drawn : Layout layout)
    (within : ∀ range ∈ atlas.ranges tgid, range ∈ layout) (member : range ∈ atlas.ranges tgid)
    (covers : range.Covers addr) : atlas.rangeAt tgid addr = some range := by
  cases found : atlas.rangeAt tgid addr with
  | none => exact absurd covers (rangeAt_eq_none.mp found range member)
  | some other =>
      obtain ⟨otherMember, otherCovers⟩ := rangeAt_eq_some found
      obtain same | apart := drawn.eq_or_disjoint (within other otherMember) (within range member)
      · rw [same]
      · obtain ⟨start, stop⟩ := covers
        obtain ⟨start', stop'⟩ := otherCovers
        rw [BitVec.le_def] at start start'
        rw [BitVec.lt_def] at stop stop'
        obtain before | behind := apart
        · rw [BitVec.le_def] at before
          omega
        · rw [BitVec.le_def] at behind
          omega

end Atlas

end DwBpf
