import DwBpf.Machine.Maps

/-! # The callbacks of libunwind, and the walk over a stack

`unwind_libunwind.c`. The unwinder is not part of the repository: what it asks
the callbacks, and the frames it finds, are arguments. The answers of the
operating system and of libelf are arguments of the callbacks that need them.
-/

namespace DwBpf

/-- The little-endian number in the first bytes of a list. -/
def littleEndian (width : Nat) (bytes : List Byte) : BitVec width :=
  bytes.foldr (fun byte rest => rest <<< 8 ||| byte.setWidth width) 0

/-- What a callback works on: `struct unwind_info`. -/
structure UnwindInfo where
  uc : UnwindCtx
  thread : Ref Thread

/-- `find_map`. -/
def findMap (store : Store) (info : UnwindInfo) (ip : U64) : Except Fault (Option Map) := do
  let thread ← deref store.threads info.thread
  match thread.maps with
  | none => .error .dangling
  | some maps => do
      match ← Maps.find store maps ip with
      | none => return none
      | some ref => do
          let map ← deref store.mapObjs ref
          return some map

/-- Work on the data of a dso. -/
def Store.withData {α : Type} (store : Store) (ref : Ref Dso)
    (work : DsoData → Except Fault (α × DsoData)) : Except Fault (α × Store) := do
  let dso ← deref store.dsos ref
  let (result, data) ← work dso.data
  return (result, store.modifyDso ref fun dso => { dso with data := data })

/-- `dso__data_read_offset`, as work on the data. -/
def DsoData.readBytes (os : Os) (offset : U64) (size : Nat) (data : DsoData) :
    Except Fault ((Int × List Byte) × DsoData) := do
  let (count, bytes, data) ← data.readOffset os offset size
  return ((count, bytes), data)

/-- `access_dso_mem`: the status, and the word when it is 0. -/
def accessDsoMem (os : Os) (store : Store) (info : UnwindInfo) (addr : U64) :
    Except Fault ((Int × U64) × Store) := do
  match ← findMap store info addr with
  | none => return ((-1, 0), store)
  | some map => do
      let ((size, bytes), store) ← store.withData map.dso (DsoData.readBytes os (map.mapIp addr) 8)
      if size = 8 then return ((0, littleEndian 64 bytes), store) else return ((1, 0), store)

/-- The word in the snapshot of the stack at `offset`. -/
def UnwindCtx.word (uc : UnwindCtx) (offset : Nat) : Except Fault U64 :=
  if offset + 8 ≤ stackSize then
    .ok (littleEndian 64 ((List.range 8).map fun index =>
      if inside : offset + index < stackSize then uc.data ⟨offset + index, inside⟩ else 0))
  else .error .outOfBounds

/-- Whether `access_mem` takes a word from the snapshot that starts at `start`. -/
def UnwindCtx.snapshots (uc : UnwindCtx) (start addr : U64) : Bool :=
  decide (start ≤ addr) && decide (addr + 8 < start + uc.size.signExtend 64)

/-- `access_mem` takes the word at `addr` from the snapshot if it is to be read. -/
def UnwindCtx.Snapshot (uc : UnwindCtx) (addr : U64) : Prop :=
  0 < uc.size.toInt ∧ ¬ addr + 8 < addr ∧ uc.snapshots (uc.uregs .sp) addr = true

/-- `access_mem`: the status, and the value left in `*valp` when it is written. -/
def accessMem (os : Os) (store : Store) (info : UnwindInfo) (addr : U64) (write : Bool) :
    Except Fault ((Int × Option U64) × Store) :=
  if write ∨ info.uc.size.toInt ≤ 0 then .ok ((0, some 0), store)
  else do
    let start ← regValue info.uc.uregs X86Reg.sp.id
    if addr + 8 < addr then return ((negEinval, none), store)
    else if info.uc.snapshots start addr then do
      let value ← info.uc.word (addr - start).toNat
      return ((0, some value), store)
    else do
      let ((status, value), store) ← accessDsoMem os store info addr
      if status = 0 then return ((0, some value), store) else return ((status, some 0), store)

/-- A word is looked for when the context has a stack. -/
theorem UnwindCtx.reads_of_sized {uc : UnwindCtx} (sized : 0 < uc.size.toInt) :
    ¬ (false = true ∨ uc.size.toInt ≤ 0) := by
  rw [not_or]
  exact ⟨Bool.false_ne_true, Int.not_le.mpr sized⟩

/-- `access_reg`. -/
def accessReg (info : UnwindInfo) (regnum : BitVec 32) (write : Bool) :
    Except Fault (Int × Option U64) :=
  if write then .ok (0, none)
  else do
    let value ← regValue info.uc.uregs (archRegId regnum)
    return (0, some value)

/-- The size of `struct eh_frame_hdr`. -/
abbrev hdrSize : Nat := 20

/-- `dw_read` of a number of `size` bytes at `cur`, which must end within the header. -/
def dwRead (hdr : List Byte) (cur size : Nat) : Option (BitVec (8 * size)) :=
  if cur + size ≤ hdrSize then some (littleEndian (8 * size) ((hdr.drop cur).take size)) else none

/-- `__dw_read_encoded_value` in a header that lies at `address`. -/
def dwReadEncodedValue (address : U64) (hdr : List Byte) (cur : Nat) (encoding : Byte) :
    Option (U64 × Nat) :=
  if encoding = 0xff then some (0, cur)
  else if encoding = 0x00 then (dwRead hdr cur 8).map fun value => (value.setWidth 64, cur + 8)
  else do
    let base ← match encoding &&& 0x70 with
      | 0x00#8 => some (0 : U64)
      | 0x10#8 => some (address + BitVec.ofNat 64 cur)
      | _ => none
    let encoding := if encoding &&& 0x07 = 0x00 then encoding ||| 0x03 else encoding
    match encoding &&& 0x0f with
    | 0x0b#8 => (dwRead hdr cur 4).map fun value => (base + value.signExtend 64, cur + 4)
    | 0x03#8 => (dwRead hdr cur 4).map fun value => (base + value.setWidth 64, cur + 4)
    | 0x0c#8 => (dwRead hdr cur 8).map fun value => (base + value.setWidth 64, cur + 8)
    | 0x04#8 => (dwRead hdr cur 8).map fun value => (base + value.setWidth 64, cur + 8)
    | _ => none

/-- What `unwind_spec_ehframe` finds out about a dso. -/
structure UnwindSpec where
  tableData : U64
  segbase : U64
  fdeCount : U64

/-- `unwind_spec_ehframe` on the header read from `offset`. -/
def UnwindSpec.ofHeader (address offset : U64) (hdr : List Byte) : Option UnwindSpec := do
  let (_, cur) ← dwReadEncodedValue address hdr 4 (hdr.getD 1 0)
  let (fdeCount, cur) ← dwReadEncodedValue address hdr cur (hdr.getD 2 0)
  return ⟨BitVec.ofNat 64 cur + offset, offset, fdeCount⟩

/-- The header lies at `address` while it is decoded, and libelf finds the section
`.eh_frame_hdr` at `sectionOffset`, which is 0 if there is none. -/
structure ElfAnswers where
  address : U64
  sectionOffset : U64

/-- `unwind_spec_ehframe`. -/
def unwindSpecEhframe (os : Os) (elf : ElfAnswers) (offset : U64) (data : DsoData) :
    Except Fault (Option UnwindSpec × DsoData) := do
  let ((count, hdr), data) ← data.readBytes os offset hdrSize
  if count = hdrSize then return (UnwindSpec.ofHeader elf.address offset hdr, data)
  else return (none, data)

/-- The offset of the section, looked up once and then kept. -/
def ehFrameHdrOffset (os : Os) (elf : ElfAnswers) (data : DsoData) :
    Except Fault (Option U64 × DsoData) :=
  if data.ehFrameHdrOffset ≠ 0 then .ok (some data.ehFrameHdrOffset, data)
  else do
    let (fd, data) ← data.getFd os
    if fd = none then return (none, data)
    else return (some elf.sectionOffset, { data with ehFrameHdrOffset := elf.sectionOffset })

/-- `read_unwind_spec_eh_frame`. -/
def readUnwindSpecEhFrame (os : Os) (elf : ElfAnswers) (data : DsoData) :
    Except Fault (Option UnwindSpec × DsoData) := do
  let (found, data) ← ehFrameHdrOffset os elf data
  match found with
  | none => return (none, data)
  | some offset => if offset = 0 then return (none, data) else unwindSpecEhframe os elf offset data

/-- `unw_dyn_info_t` as `find_proc_info` hands it to `dwarf_search_unwind_table`. -/
structure DynInfo where
  startIp : U64
  endIp : U64
  segbase : U64
  tableData : U64
  tableLen : U64

/-- The table of a map's dso, at the addresses where the map has it. -/
def DynInfo.of (map : Map) (spec : UnwindSpec) : DynInfo where
  startIp := map.start
  endIp := map.stop
  segbase := map.start + spec.segbase - map.pgoff
  tableData := map.start + spec.tableData - map.pgoff
  tableLen := spec.fdeCount * 8 / 8

/-- `find_proc_info`: the status, and the table that `dwarf_search_unwind_table`
was given when it was called; `searched` is what that call returns. -/
def findProcInfo (os : Os) (elf : ElfAnswers) (searched : Int) (store : Store) (info : UnwindInfo)
    (ip : U64) : Except Fault ((Int × Option DynInfo) × Store) := do
  match ← findMap store info ip with
  | none => return ((negEinval, none), store)
  | some map => do
      let (spec, store) ← store.withData map.dso (readUnwindSpecEhFrame os elf)
      match spec with
      | none => return ((negEinval, none), store)
      | some spec => return ((searched, some (DynInfo.of map spec)), store)

/-- One call of a callback by libunwind, with the answers it gets from elsewhere.
The calls that `dwarf_search_unwind_table` makes are calls of their own. -/
inductive Request where
  | findProcInfo (ip : U64) (os : Os) (elf : ElfAnswers) (searched : Int)
  | accessMem (addr : U64) (write : Bool) (os : Os)
  | accessReg (regnum : BitVec 32) (write : Bool)

/-- The status a callback returns, and the word it delivers. -/
abbrev Answer := Int × Option U64

def Request.step (info : UnwindInfo) : Request → Store → Except Fault (Answer × Store)
  | .findProcInfo ip os elf searched, store => do
      let ((status, _), store) ← DwBpf.findProcInfo os elf searched store info ip
      return ((status, none), store)
  | .accessMem addr write os, store => DwBpf.accessMem os store info addr write
  | .accessReg regnum write, store => do
      let answer ← DwBpf.accessReg info regnum write
      return (answer, store)

/-- `struct stacktrace`; a stacktrace without room for entries has no `ips`. -/
structure Stacktrace where
  depth : Int
  ips : Option (List U64)

/-- What the unwinder does on one sample: its calls of the callbacks, the result
of `unw_init_remote`, and the frames it steps to, with those that are signal
frames marked. -/
structure Unwinder where
  requests : List Request
  initRemote : Int
  frames : List (U64 × Bool)

/-- Write one entry of `ips`. -/
def writeIp (ips : List U64) (index : Nat) (ip : U64) : Except Fault (List U64) :=
  if index < ips.length then .ok (ips.set index ip) else .error .outOfBounds

/-- The loop of `get_entries`. -/
def stepFrames (depth : Int) : List (U64 × Bool) → Nat → List U64 → Except Fault (Nat × List U64)
  | [], index, ips => .ok (index, ips)
  | (ip, signal) :: frames, index, ips =>
      if (index : Int) < depth then do
        let ips ← writeIp ips index (if signal then ip else ip - 1)
        stepFrames depth frames (index + 1) ips
      else .ok (index, ips)

/-- `EINVAL`. -/
abbrev einval : Int := 22

/-- `get_entries` behind the check of its stacktrace. -/
def getEntriesInto (unwinder : Unwinder) (store : Store) (info : UnwindInfo) (depth : Int)
    (ips : List U64) : Except Fault ((Int × Stacktrace) × Store) := do
  let val ← regValue info.uc.uregs X86Reg.ip.id
  let ips ← writeIp ips 0 val
  let thread ← deref store.threads info.thread
  if thread.addrSpace then do
    let (_, store) ← runAll (Request.step info) unwinder.requests store
    if unwinder.initRemote = 0 then do
      let (index, ips) ← stepFrames depth unwinder.frames 1 ips
      return ((0, ⟨index, some ips⟩), store)
    else return ((unwinder.initRemote, ⟨1, some ips⟩), store)
  else return ((-1, ⟨depth, some ips⟩), store)

/-- `get_entries`. -/
def getEntries (unwinder : Unwinder) (store : Store) (info : UnwindInfo) (st : Option Stacktrace) :
    Except Fault ((Int × Option Stacktrace) × Store) :=
  match st with
  | none => .ok ((einval, none), store)
  | some st =>
      match st.ips with
      | none => .ok ((einval, some st), store)
      | some ips =>
          if st.depth < 1 then .ok ((einval, some st), store)
          else do
            let ((status, st), store) ← getEntriesInto unwinder store info st.depth ips
            return ((status, some st), store)

end DwBpf
