import DwBpf.Event.Interface
import DwBpf.Ndebug.Machine

/-! # The public interface in a build without assertions

The functions of `dso.c`, `ptrace.h`, `unwind_libunwind.c` and `event.c` that have
assertions, or call one that has, as a build with `NDEBUG` has them. They return what
the functions with assertions return, but for `bpf_unwind_ctx__process_mmap`: the call
of `thread__insert_map` is an argument of its assertion.
-/

namespace DwBpf

namespace Ndebug

variable {τ : Type} {store : Store}

def doOpen (os : Os) : Except Fault (Option Nat) := .ok os.opened

/-- The result of `is_regular_file` is not looked at, and neither is it called. -/
def openDso (os : Os) : Except Fault (Option Nat) := doOpen os

theorem extends_openDso (os : Os) : Extends (DwBpf.openDso os) (openDso os) := by
  unfold DwBpf.openDso DwBpf.doOpen openDso doOpen
  split
  · cases os.opened with
    | none => exact extends_error _ _
    | some fd => exact extends_refl _
  · exact extends_error _ _

def tryToOpenDso (os : Os) (data : DsoData) : Except Fault DsoData :=
  match data.fd with
  | some _ => .ok data
  | none => do
      let fd ← openDso os
      return { data with fd := fd, status := if fd.isSome then .ok else .error }

theorem extends_tryToOpenDso (os : Os) (data : DsoData) :
    Extends (DwBpf.tryToOpenDso os data) (tryToOpenDso os data) := by
  unfold DwBpf.tryToOpenDso tryToOpenDso
  cases data.fd with
  | some fd => exact extends_refl _
  | none =>
      apply (extends_openDso os).bind
      intro fd
      exact extends_refl _

/-- `dso__data_get_fd`. -/
def getFd (os : Os) (data : DsoData) : Except Fault (Option Nat × DsoData) :=
  if data.status = .error then .ok (none, data)
  else do
    let data ← tryToOpenDso os data
    return (data.fd, data)

/-- `dso_cache__read`, in turn `turn` of the read loop. -/
def cacheRead (os : Os) (turn : Nat) (data : DsoData) (offset size : U64) :
    Except Fault (Int × List Byte × DsoData) := do
  let id := data.allocated
  let data ← tryToOpenDso os { data with allocated := id + 1 }
  if data.fd = none then
    return (-os.errno, [], { data with status := .error }.free id)
  match os.pread turn (chunkOffset offset) with
  | .failed => return (-1, [], data.free id)
  | .read chunk =>
      if chunk.bytes = [] then return (0, [], data.free id)
      let data := (os.others turn).foldl DsoCache.insertOther data
      let new : DsoCache := { chunk with id := id, offset := chunkOffset offset }
      let (cache, data) := match DsoCache.insert data new with
        | (some old, data) => (old, data.free id)
        | (none, data) => (new, data)
      let (copied, bytes) := cache.memcpy offset size
      let ret := copied.toInt
      return (ret, bytes, if ret ≤ 0 then data.free cache.id else data)

def dsoCacheRead (os : Os) (turn : Nat) (data : DsoData) (offset size : U64) :
    Except Fault (Int × List Byte × DsoData) :=
  match DsoCache.find data offset with
  | some cache =>
      let (copied, bytes) := cache.memcpy offset size
      .ok (copied.toInt, bytes, data)
  | none => cacheRead os turn data offset size

theorem extends_dsoCacheRead (os : Os) (turn : Nat) (data : DsoData) (offset size : U64) :
    Extends (DwBpf.dsoCacheRead os turn data offset size)
      (dsoCacheRead os turn data offset size) := by
  unfold DwBpf.dsoCacheRead dsoCacheRead
  cases DsoCache.find data offset with
  | some cache => exact extends_refl _
  | none =>
      apply (extends_tryToOpenDso os _).bind
      intro opened
      exact extends_refl _

/-- The loop of `cached_read`. A copy of more bytes than there is room for would have
written behind the buffer. -/
def cachedRead (os : Os) (turn : Nat) (data : DsoData) (offset : U64) (size : Nat)
    (r : Nat) (written : List Byte) : Except Fault (Int × List Byte × DsoData) :=
  match dsoCacheRead os turn data offset (BitVec.ofNat 64 size) with
  | .error fault => .error fault
  | .ok (ret, bytes, data) =>
      if ret < 0 then .ok (ret, written, data)
      else if ret = 0 then .ok (r, written, data)
      else if size < ret.toNat then .error .outOfBounds
      else if size - ret.toNat = 0 then .ok (r + ret.toNat, written ++ bytes, data)
      else cachedRead os (turn + 1) data (offset + BitVec.ofNat 64 ret.toNat) (size - ret.toNat)
        (r + ret.toNat) (written ++ bytes)
termination_by size

theorem extends_cachedRead (os : Os) (turn : Nat) (data : DsoData) (offset : U64) (size r : Nat)
    (written : List Byte) :
    Extends (DwBpf.cachedRead os turn data offset size r written)
      (cachedRead os turn data offset size r written) := by
  induction size using Nat.strongRecOn generalizing turn data offset r written with
  | ind size ih =>
      rw [DwBpf.cachedRead, cachedRead]
      cases read : DwBpf.dsoCacheRead os turn data offset (BitVec.ofNat 64 size) with
      | error failure => exact extends_error _ _
      | ok result =>
          obtain ⟨ret, bytes, after⟩ := result
          rw [extends_dsoCacheRead _ _ _ _ _ _ read]
          dsimp only
          by_cases negative : ret < 0
          · rw [if_pos negative, if_pos negative]
            exact extends_refl _
          · rw [if_neg negative, if_neg negative]
            by_cases ended : ret = 0
            · rw [if_pos ended, if_pos ended]
              exact extends_refl _
            · rw [if_neg ended, if_neg ended]
              refine extends_ite (extends_error _ _) ?_
              by_cases last : size - ret.toNat = 0
              · rw [if_pos last, if_pos last]
                exact extends_refl _
              · rw [if_neg last, if_neg last]
                exact ih (size - ret.toNat) (by omega) _ _ _ _ _

/-- `data_file_size`. -/
def dataFileSize (os : Os) (data : DsoData) : Except Fault (Bool × DsoData) :=
  if data.fileSize ≠ 0 then .ok (true, data)
  else if data.status = .error then .ok (false, data)
  else do
    let data ← tryToOpenDso os data
    if data.fd = none then return (false, { data with status := .error })
    match os.fstat with
    | none => return (false, { data with status := .error })
    | some size => return (true, { data with fileSize := size })

def dataReadOffset (os : Os) (data : DsoData) (offset : U64) (size : Nat) :
    Except Fault (Int × List Byte × DsoData) := do
  let (known, data) ← dataFileSize os data
  if ¬ known then return (-1, [], data)
  if data.fileSize < offset then return (-1, [], data)
  if offset + BitVec.ofNat 64 size < offset then return (-1, [], data)
  cachedRead os 0 data offset size 0 []

/-- `dso__data_read_offset`. -/
def readOffset (os : Os) (data : DsoData) (offset : U64) (size : Nat) :
    Except Fault (Int × List Byte × DsoData) :=
  if data.status = .error then .ok (-1, [], data)
  else dataReadOffset os data offset size

/-- `dso__data_read_offset`, as work on the data. -/
def readBytes (os : Os) (offset : U64) (size : Nat) (data : DsoData) :
    Except Fault ((Int × List Byte) × DsoData) := do
  let (count, bytes, data) ← readOffset os data offset size
  return ((count, bytes), data)

theorem extends_readBytes (os : Os) (offset : U64) (size : Nat) (data : DsoData) :
    Extends (DsoData.readBytes os offset size data) (readBytes os offset size data) := by
  refine Extends.bind (extends_ite (extends_refl _) ?_) fun _ => extends_refl _
  refine Extends.bind ?_ ?_
  · refine extends_ite (extends_refl _) (extends_ite (extends_refl _) ?_)
    apply (extends_tryToOpenDso os data).bind
    intro opened
    exact extends_refl _
  · intro known
    refine extends_ite (extends_refl _) (extends_ite (extends_refl _)
      (extends_ite (extends_refl _) ?_))
    exact extends_cachedRead os 0 _ offset size 0 []

/-- `reg_value`; the table is read behind its end. -/
def regValue (regs : PtRegs) (idx : BitVec 32) : Except Fault U64 :=
  match ptRegsOffset[(idx.signExtend 64).toNat]? with
  | none => .error .outOfBounds
  | some offset =>
      match PtReg.all.find? fun reg => reg.offset = offset with
      | none => .error .outOfBounds
      | some reg => .ok (regs reg)

theorem extends_regValue (regs : PtRegs) (idx : BitVec 32) :
    Extends (DwBpf.regValue regs idx) (regValue regs idx) := by
  unfold DwBpf.regValue regValue
  cases ptRegsOffset[(idx.signExtend 64).toNat]? with
  | none => exact extends_error _ _
  | some offset => exact extends_refl _

theorem extends_withData {α : Type} {dso : Ref Dso}
    {work work' : DsoData → Except Fault (α × DsoData)}
    (extend : ∀ data, Extends (work data) (work' data)) :
    Extends (store.withData dso work) (store.withData dso work') := by
  apply (extends_refl _).bind
  intro object
  apply (extend object.data).bind
  intro result
  exact extends_refl _

/-- `access_dso_mem`. -/
def accessDsoMem (os : Os) (store : Store) (info : UnwindInfo) (addr : U64) :
    Except Fault ((Int × U64) × Store) := do
  match ← findMap store info addr with
  | none => return ((-1, 0), store)
  | some map => do
      let ((size, bytes), store) ← store.withData map.dso (readBytes os (map.mapIp addr) 8)
      if size = 8 then return ((0, littleEndian 64 bytes), store) else return ((1, 0), store)

/-- `access_mem`. -/
def accessMem (os : Os) (store : Store) (info : UnwindInfo) (addr : U64) (write : Bool) :
    Except Fault ((Int × Option U64) × Store) :=
  if write ∨ info.uc.size.toInt ≤ 0 then .ok ((0, some 0), store)
  else do
    let start ← regValue info.uc.uregs X86Reg.sp.id
    if addr + 8 < addr then return ((negEinval, none), store)
    else if info.uc.snapshots start addr then do
      let value ← info.uc.word (addr - start).toNat
      return ((0, some value), store)
    else do
      let ((status, value), store) ← accessDsoMem os store info addr
      if status = 0 then return ((0, some value), store) else return ((status, some 0), store)

theorem extends_accessMem (os : Os) (info : UnwindInfo) (addr : U64) (write : Bool) :
    Extends (DwBpf.accessMem os store info addr write) (accessMem os store info addr write) := by
  refine extends_ite (extends_refl _) ?_
  apply (extends_regValue _ _).bind
  intro start
  refine extends_ite (extends_refl _) (extends_ite (extends_refl _) ?_)
  refine Extends.bind ?_ fun _ => extends_refl _
  apply (extends_refl _).bind
  intro found
  cases found with
  | none => exact extends_refl _
  | some map =>
      apply (extends_withData (extends_readBytes os (map.mapIp addr) 8)).bind
      intro result
      exact extends_refl _

/-- `access_reg`. -/
def accessReg (info : UnwindInfo) (regnum : BitVec 32) (write : Bool) :
    Except Fault (Int × Option U64) :=
  if write then .ok (0, none)
  else do
    let value ← regValue info.uc.uregs (archRegId regnum)
    return (0, some value)

/-- `unwind_spec_ehframe`. -/
def unwindSpecEhframe (os : Os) (elf : ElfAnswers) (offset : U64) (data : DsoData) :
    Except Fault (Option UnwindSpec × DsoData) := do
  let ((count, hdr), data) ← readBytes os offset hdrSize data
  if count = hdrSize then return (UnwindSpec.ofHeader elf.address offset hdr, data)
  else return (none, data)

/-- The offset of the section, looked up once and then kept. -/
def ehFrameHdrOffset (os : Os) (elf : ElfAnswers) (data : DsoData) :
    Except Fault (Option U64 × DsoData) :=
  if data.ehFrameHdrOffset ≠ 0 then .ok (some data.ehFrameHdrOffset, data)
  else do
    let (fd, data) ← getFd os data
    if fd = none then return (none, data)
    else return (some elf.sectionOffset, { data with ehFrameHdrOffset := elf.sectionOffset })

/-- `read_unwind_spec_eh_frame`. -/
def readUnwindSpecEhFrame (os : Os) (elf : ElfAnswers) (data : DsoData) :
    Except Fault (Option UnwindSpec × DsoData) := do
  let (found, data) ← ehFrameHdrOffset os elf data
  match found with
  | none => return (none, data)
  | some offset => if offset = 0 then return (none, data) else unwindSpecEhframe os elf offset data

theorem extends_readUnwindSpecEhFrame (os : Os) (elf : ElfAnswers) (data : DsoData) :
    Extends (DwBpf.readUnwindSpecEhFrame os elf data) (readUnwindSpecEhFrame os elf data) := by
  refine Extends.bind (extends_ite (extends_refl _) (Extends.bind ?_ fun _ => extends_refl _)) ?_
  · refine extends_ite (extends_refl _) ?_
    apply (extends_tryToOpenDso os data).bind
    intro opened
    exact extends_refl _
  · rintro ⟨found, data⟩
    cases found with
    | none => exact extends_refl _
    | some offset =>
        refine extends_ite (extends_refl _) ?_
        apply (extends_readBytes os offset hdrSize data).bind
        intro result
        exact extends_refl _

/-- `find_proc_info`. -/
def findProcInfo (os : Os) (elf : ElfAnswers) (searched : Int) (store : Store) (info : UnwindInfo)
    (ip : U64) : Except Fault ((Int × Option DynInfo) × Store) := do
  match ← findMap store info ip with
  | none => return ((negEinval, none), store)
  | some map => do
      let (spec, store) ← store.withData map.dso (readUnwindSpecEhFrame os elf)
      match spec with
      | none => return ((negEinval, none), store)
      | some spec => return ((searched, some (DynInfo.of map spec)), store)

theorem extends_findProcInfo (os : Os) (elf : ElfAnswers) (searched : Int) (info : UnwindInfo)
    (ip : U64) :
    Extends (DwBpf.findProcInfo os elf searched store info ip)
      (findProcInfo os elf searched store info ip) := by
  apply (extends_refl _).bind
  intro found
  cases found with
  | none => exact extends_refl _
  | some map =>
      apply (extends_withData (extends_readUnwindSpecEhFrame os elf)).bind
      intro result
      exact extends_refl _

def requestStep (info : UnwindInfo) : Request → Store → Except Fault (Answer × Store)
  | .findProcInfo ip os elf searched, store => do
      let ((status, _), store) ← findProcInfo os elf searched store info ip
      return ((status, none), store)
  | .accessMem addr write os, store => accessMem os store info addr write
  | .accessReg regnum write, store => do
      let answer ← accessReg info regnum write
      return (answer, store)

theorem extends_requestStep (info : UnwindInfo) (request : Request) (store : Store) :
    Extends (request.step info store) (requestStep info request store) := by
  cases request with
  | findProcInfo ip os elf searched =>
      apply (extends_findProcInfo os elf searched info ip).bind
      intro result
      exact extends_refl _
  | accessMem addr write os => exact extends_accessMem os info addr write
  | accessReg regnum write =>
      refine Extends.bind (extends_ite (extends_refl _) ?_) fun _ => extends_refl _
      apply (extends_regValue _ _).bind
      intro value
      exact extends_refl _

/-- `get_entries` behind the check of its stacktrace. -/
def getEntriesInto (unwinder : Unwinder) (store : Store) (info : UnwindInfo) (depth : Int)
    (ips : List U64) : Except Fault ((Int × Stacktrace) × Store) := do
  let val ← regValue info.uc.uregs X86Reg.ip.id
  let ips ← writeIp ips 0 val
  let thread ← deref store.threads info.thread
  if thread.addrSpace then do
    let (_, store) ← runAll (requestStep info) unwinder.requests store
    if unwinder.initRemote = 0 then do
      let (index, ips) ← stepFrames depth unwinder.frames 1 ips
      return ((0, ⟨index, some ips⟩), store)
    else return ((unwinder.initRemote, ⟨1, some ips⟩), store)
  else return ((-1, ⟨depth, some ips⟩), store)

theorem extends_getEntriesInto (unwinder : Unwinder) (info : UnwindInfo) (depth : Int)
    (ips : List U64) :
    Extends (DwBpf.getEntriesInto unwinder store info depth ips)
      (getEntriesInto unwinder store info depth ips) := by
  apply (extends_regValue _ _).bind
  intro val
  apply (extends_refl _).bind
  intro ips
  apply (extends_refl _).bind
  intro thread
  refine extends_ite ?_ (extends_refl _)
  apply (runAll_extends (fun request _ => extends_requestStep info request) store).bind
  intro result
  exact extends_refl _

/-- `get_entries`. -/
def getEntries (unwinder : Unwinder) (store : Store) (info : UnwindInfo) (st : Option Stacktrace) :
    Except Fault ((Int × Option Stacktrace) × Store) :=
  match st with
  | none => .ok ((einval, none), store)
  | some st =>
      match st.ips with
      | none => .ok ((einval, some st), store)
      | some ips =>
          if st.depth < 1 then .ok ((einval, some st), store)
          else do
            let ((status, st), store) ← getEntriesInto unwinder store info st.depth ips
            return ((status, some st), store)

theorem extends_getEntries (unwinder : Unwinder) (info : UnwindInfo) (st : Option Stacktrace) :
    Extends (DwBpf.getEntries unwinder store info st) (getEntries unwinder store info st) := by
  cases st with
  | none => exact extends_refl _
  | some st =>
      unfold DwBpf.getEntries getEntries
      dsimp only
      cases st.ips with
      | none => exact extends_refl _
      | some ips =>
          refine extends_ite (extends_refl _) ?_
          apply (extends_getEntriesInto unwinder info st.depth ips).bind
          intro result
          exact extends_refl _

/-- `unwind__get_entries`. -/
def unwindGetEntries (unwinder : Unwinder) (store : Store) (th : Ref Thread) (uc : UnwindCtx)
    (st : Option Stacktrace) : Except Fault ((Int × Option Stacktrace) × Store) := do
  let thread ← deref store.threads th
  if thread.ulops then
    match thread.maps with
    | none => .error .dangling
    | some maps => do
        let _ ← deref store.maps maps
        getEntries unwinder store ⟨uc, th⟩ st
  else return ((0, st), store)

/-- Look a thread up and work on the answer, which may be `NULL`. -/
def withThread {α : Type} (lookup : Lookup τ) (machine : State τ) (tgid tid : Pid)
    (work : Store → Option (Ref Thread) → Except Fault (α × Store)) :
    Except Fault (α × State τ) := do
  let (found, machine) ← lookup machine tgid tid
  let (result, store) ← work machine.store found
  return (result, { machine with store := store })

/-- With assertions the work gets the thread that the lookup has found, and without them
it may get none. -/
theorem extends_withThread {α : Type} {lookup lookup' : Lookup τ}
    {work : Store → Ref Thread → Except Fault (α × Store)}
    {work' : Store → Option (Ref Thread) → Except Fault (α × Store)}
    (extend : LookupExtends lookup lookup')
    (works : ∀ store th, Extends (work store th) (work' store (some th)))
    (machine : State τ) (tgid tid : Pid) :
    Extends (DwBpf.withThread lookup machine tgid tid work)
      (withThread lookup' machine tgid tid work') := by
  apply (extend machine tgid tid).bind
  rintro ⟨found, middle⟩
  cases found with
  | none => exact extends_error _ _
  | some th =>
      apply (works middle.store th).bind
      intro result
      exact extends_refl _

/-- `thread__put` of what a lookup has returned, which may be `NULL`. -/
def putThread (store : Store) : Option (Ref Thread) → Except Fault Store
  | none => .ok store
  | some th => threadPut store th

/-- What `bpf_unwind_ctx__process_mmap` does with the thread it has found: nothing inserts
the map, and the reference that `map__new` returned is the last one. -/
def recordMap (event : MmapEvent) (store : Store) (th : Option (Ref Thread)) :
    Except Fault (Unit × Store) := do
  let (map, store) ← Map.new store event
  let store ← putThread store th
  let store ← mapPut store map
  return ((), store)

/-- `bpf_unwind_ctx__process_mmap`. -/
def processMmap (lookup : Lookup τ) (machine : State τ) (event : MmapEvent) :
    Except Fault (Unit × State τ) :=
  withThread lookup machine event.tgid event.tid (recordMap event)

/-- The loop of `bpf_unwind_ctx_prepare_mmap`, over what `fgets` returns. -/
def prepareLines (lookup : Lookup τ) (tgid tid : Pid) :
    List (List Char) → Scratch → State τ → Except Fault (State τ)
  | [], _, machine => .ok machine
  | bf :: rest, scratch, machine => do
      let (event, scratch) ← scratch.line bf tgid tid
      match event with
      | none => prepareLines lookup tgid tid rest scratch machine
      | some event => do
          let (_, machine) ← processMmap lookup machine event
          prepareLines lookup tgid tid rest scratch machine

/-- `bpf_unwind_ctx__thread_map`. -/
def threadMap (lookup : Lookup τ) (machine : State τ) (tgid tid : Pid) (text : Option (List Char))
    (scratch : Scratch) : Except Fault (Int × State τ) :=
  match text with
  | none => .ok (-1, machine)
  | some text => do
      let machine ← prepareLines lookup tgid tid (Scan.chunks bufsiz text []) scratch machine
      return (0, machine)

/-- What `bpf_unwind_ctx__resolve_callchain` does with the thread, which it follows. -/
def resolveThread (st : Option Stacktrace) (uc : UnwindCtx) (created : Bool) (unwinder : Unwinder)
    (store : Store) : Option (Ref Thread) → Except Fault (Resolved × Store)
  | none => .error .dangling
  | some th => do
      let (_, store) ← Thread.prepareAccess store th created
      let (flushed, store) ← Thread.setComm store th uc.name
      let ((status, st), store) ← unwindGetEntries unwinder store th uc st
      return (⟨status, st, flushed⟩, store)

/-- Resolving a sample that returns does so without assertions. -/
theorem extends_resolveThread (st : Option Stacktrace) (uc : UnwindCtx) (created : Bool)
    (unwinder : Unwinder) (store : Store) (th : Ref Thread) :
    Extends (DwBpf.resolveThread st uc created unwinder store th)
      (resolveThread st uc created unwinder store (some th)) := by
  apply (extends_refl _).bind
  intro prepared
  apply (extends_refl _).bind
  intro named
  refine Extends.bind ?_ fun _ => extends_refl _
  apply (extends_refl _).bind
  intro thread
  refine extends_ite ?_ (extends_refl _)
  cases thread.maps with
  | none => exact extends_error _ _
  | some maps =>
      apply (extends_refl _).bind
      intro object
      exact extends_getEntries unwinder _ _

/-- What `bpf_dl_iterate_phdr` does with the thread, which it follows. -/
def iterateThread (callback : Nat → PhdrInfo → Int) (store : Store) :
    Option (Ref Thread) → Except Fault ((Int × List PhdrInfo) × Store)
  | none => .error .dangling
  | some th => DwBpf.iterateThread callback store th

/-- A call of the public interface. -/
def callStep (lookup : Lookup τ) : Call → State τ → Except Fault (Reply × State τ)
  | .threadMap tgid tid text scratch _, machine => do
      let (status, machine) ← threadMap lookup machine tgid tid text scratch
      return (.mapped status, machine)
  | .resolveCallchain st uc created unwinder, machine => do
      let (result, machine) ← withThread lookup machine uc.tgid uc.tid
        (resolveThread st uc created unwinder)
      return (.resolved result, machine)
  | .dlIteratePhdr tgid callback, machine => do
      let ((status, infos), machine) ← withThread lookup machine tgid tgid (iterateThread callback)
      return (.iterated status infos, machine)

/-- A call on the machine of the source. -/
def step : Call → Machine → Except Fault (Reply × Machine) := callStep findnewThread

end Ndebug

end DwBpf
