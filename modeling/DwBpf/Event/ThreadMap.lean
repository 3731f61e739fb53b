import DwBpf.Foundation.Scan
import DwBpf.Machine.Findnew
import DwBpf.Machine.Maps

/-! # Recording the maps of a process

`bpf_unwind_ctx__thread_map`: read the text of `/proc/<tgid>/task/<tgid>/maps`
line by line, and enter every executable range into the maps of the thread. The
text, and whether `unw_create_addr_space` succeeds, are arguments; so is what
the buffers held before they were written, which a short field can uncover.
-/

namespace DwBpf

open Scan

variable {τ : Type}

/-- `unwind__prepare_access`: whether the thread has an address space. -/
def Thread.prepareAccess (store : Store) (th : Ref Thread) (created : Bool) :
    Except Fault (Bool × Store) := do
  let thread ← deref store.threads th
  if thread.addrSpace then return (true, store)
  else return (created, store.modifyThread th fun thread =>
    { thread with ulops := true, addrSpace := created })

/-- `thread__insert_map`: whether it succeeded. -/
def Thread.insertMap (store : Store) (th : Ref Thread) (map : Ref Map) (created : Bool) :
    Except Fault (Bool × Store) := do
  let (prepared, store) ← Thread.prepareAccess store th created
  if prepared then do
    let thread ← deref store.threads th
    match thread.maps with
    | none => .error .dangling
    | some maps => do
        let store ← Maps.insert store maps map
        return (true, store)
  else return (false, store)

/-- Look a thread up, assert that there is one, and work on it. This is how the
functions of `event.c` start. -/
def withThread {α : Type} (lookup : Lookup τ) (machine : State τ) (tgid tid : Pid)
    (work : Store → Ref Thread → Except Fault (α × Store)) : Except Fault (α × State τ) := do
  let (found, machine) ← lookup machine tgid tid
  match found with
  | none => .error (.assertion .threadFound)
  | some th => do
      let (result, store) ← work machine.store th
      return (result, { machine with store := store })

/-- What `bpf_unwind_ctx__process_mmap` does with the thread it has found. -/
def recordMap (event : MmapEvent) (created : Bool) (store : Store) (th : Ref Thread) :
    Except Fault (Unit × Store) := do
  let (map, store) ← Map.new store event
  let (inserted, store) ← Thread.insertMap store th map created
  if inserted then do
    let store ← Thread.put store th
    let store ← Map.put store map
    return ((), store)
  else .error (.assertion .mapInserted)

/-- `bpf_unwind_ctx__process_mmap`. -/
def processMmap (lookup : Lookup τ) (machine : State τ) (event : MmapEvent) (created : Bool) :
    Except Fault (Unit × State τ) :=
  withThread lookup machine event.tgid event.tid (recordMap event created)

/-- The format `bpf_unwind_ctx_prepare_mmap` scans a line with. -/
def mapsFormat : List Directive :=
  [.number 16, .literal '-', .number 16, .blank, .word, .blank, .number 16, .blank, .number 16,
    .literal ':', .number 16, .blank, .number 10, .blank, .line, .blank]

/-- `BUFSIZ`. -/
abbrev bufsiz : Nat := 8192

/-- `PATH_MAX`. -/
abbrev pathMax : Nat := 4096

/-- The event and the buffer `prot`, which outlive a line. -/
structure Scratch where
  event : MmapEvent
  prot : Fin 5 → Char

/-- The number `sscanf` assigned to its argument `index`, if it got there. -/
def numberAt (values : List Value) (index : Nat) : Option Nat :=
  match values[index]? with
  | some (.number value) => some value
  | _ => none

/-- The string `sscanf` assigned to its argument `index`, if it got there. -/
def textAt (values : List Value) (index : Nat) : Option (List Char) :=
  match values[index]? with
  | some (.text chars) => some chars
  | _ => none

/-- A C string stored over the contents of `prot`. -/
def storeProt (prot : Fin 5 → Char) (chars : List Char) : Fin 5 → Char := fun index =>
  if index.val < chars.length then chars.getD index.val '\x00'
  else if index.val = chars.length then '\x00'
  else prot index

/-- What a line assigns, and the name it carries. The buffers for the permissions
and the name hold 4 and `PATH_MAX - 1` characters. -/
def Scratch.assign (scratch : Scratch) (values : List Value) :
    Except Fault (Scratch × List Char) :=
  let prot := textAt values 2
  let execname := (textAt values 7).getD []
  if 5 ≤ (prot.getD []).length ∨ pathMax ≤ execname.length then .error .outOfBounds
  else
    let event := scratch.event
    .ok (⟨{ event with
        start := ((numberAt values 0).map (BitVec.ofNat 64)).getD event.start
        len := ((numberAt values 1).map (BitVec.ofNat 64)).getD event.len
        pgoff := ((numberAt values 3).map (BitVec.ofNat 64)).getD event.pgoff
        maj := ((numberAt values 4).map (BitVec.ofNat 32)).getD event.maj
        min := ((numberAt values 5).map (BitVec.ofNat 32)).getD event.min },
      (prot.map (storeProt scratch.prot)).getD scratch.prot⟩, execname)

/-- `PROT_READ`, `PROT_WRITE` and `PROT_EXEC` of the permissions. -/
def protBits (prot : Fin 5 → Char) : U32 :=
  (if prot 0 = 'r' then 1 else 0) ||| (if prot 1 = 'w' then 2 else 0) |||
    (if prot 2 = 'x' then 4 else 0)

/-- `MAP_SHARED` or `MAP_PRIVATE`. -/
def flagBits (prot : Fin 5 → Char) : U32 := if prot 3 = 's' then 1 else 2

/-- The event of a line whose fields were all assigned, but for its name. -/
def Scratch.complete (scratch : Scratch) (values : List Value) : Scratch :=
  { scratch with event := { scratch.event with
      ino := (BitVec.ofNat 32 ((numberAt values 6).getD 0)).setWidth 64
      prot := protBits scratch.prot
      flags := flagBits scratch.prot } }

/-- The event of an executable line. -/
def MmapEvent.named (event : MmapEvent) (execname : List Char) (tgid tid : Pid) : MmapEvent :=
  { event with
    filename := if execname = [] then "//anon".toList else execname
    len := event.len - event.start
    tgid := tgid
    tid := tid }

/-- One turn of the loop of `bpf_unwind_ctx_prepare_mmap`, on the line `bf`: the
event to process, if there is one. -/
def Scratch.line (scratch : Scratch) (bf : List Char) (tgid tid : Pid) :
    Except Fault (Option MmapEvent × Scratch) := do
  let values := scan mapsFormat (bf.takeWhile (· ≠ '\x00'))
  let (scratch, execname) ← scratch.assign values
  if values.length < 7 then return (none, scratch)
  else
    let scratch := scratch.complete values
    if scratch.prot 2 ≠ 'x' then return (none, scratch)
    else
      let event := scratch.event.named execname tgid tid
      return (some event, { scratch with event := event })

/-- The loop of `bpf_unwind_ctx_prepare_mmap`, over what `fgets` returns. -/
def prepareLines (lookup : Lookup τ) (tgid tid : Pid) (created : Bool) :
    List (List Char) → Scratch → State τ → Except Fault (State τ)
  | [], _, machine => .ok machine
  | bf :: rest, scratch, machine => do
      let (event, scratch) ← scratch.line bf tgid tid
      match event with
      | none => prepareLines lookup tgid tid created rest scratch machine
      | some event => do
          let (_, machine) ← processMmap lookup machine event created
          prepareLines lookup tgid tid created rest scratch machine

/-- `bpf_unwind_ctx__thread_map`; there is no text when `fopen` fails. -/
def threadMap (lookup : Lookup τ) (machine : State τ) (tgid tid : Pid) (text : Option (List Char))
    (scratch : Scratch) (created : Bool) : Except Fault (Int × State τ) :=
  match text with
  | none => .ok (-1, machine)
  | some text => do
      let machine ← prepareLines lookup tgid tid created (chunks bufsiz text []) scratch machine
      return (0, machine)

end DwBpf
