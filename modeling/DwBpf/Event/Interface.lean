import DwBpf.Event.ThreadMap
import DwBpf.Machine.Plain
import DwBpf.Unwind.Libunwind

/-! # The public interface

`bpf_unwind_ctx__resolve_callchain` and `bpf_dl_iterate_phdr` next to
`bpf_unwind_ctx__thread_map`, and runs of calls of the three. They are stated
for any lookup of threads; `DwBpf.Machine.step` uses that of the source.
-/

namespace DwBpf

variable {τ : Type}

/-- The string in a command name, up to its terminator or all of its bytes. -/
def Comm.text (name : Comm) : List Byte := (List.ofFn name).takeWhile (· ≠ 0)

/-- `strncpy` into a command name. -/
def Comm.copy (name : Comm) : Comm := fun index => name.text.getD index.val 0

/-- `thread__set_comm`: whether `unwind__flush_access` was called. -/
def Thread.setComm (store : Store) (th : Ref Thread) (str : Comm) :
    Except Fault (Bool × Store) := do
  let thread ← deref store.threads th
  if str.text = thread.name.text then
    return (true, store.modifyThread th fun thread => { thread with name := str.copy })
  else return (false, store)

/-- `unwind__get_entries`. -/
def Unwind.getEntries (unwinder : Unwinder) (store : Store) (th : Ref Thread) (uc : UnwindCtx)
    (st : Option Stacktrace) : Except Fault ((Int × Option Stacktrace) × Store) := do
  let thread ← deref store.threads th
  if thread.ulops then
    match thread.maps with
    | none => .error .dangling
    | some maps => do
        let _ ← deref store.maps maps
        DwBpf.getEntries unwinder store ⟨uc, th⟩ st
  else return ((0, st), store)

/-- What `bpf_unwind_ctx__resolve_callchain` returns, and whether the cache of the
unwinder was flushed for the sample. -/
structure Resolved where
  status : Int
  st : Option Stacktrace
  flushed : Bool

/-- What `bpf_unwind_ctx__resolve_callchain` does with the thread it has found. -/
def resolveThread (st : Option Stacktrace) (uc : UnwindCtx) (created : Bool) (unwinder : Unwinder)
    (store : Store) (th : Ref Thread) : Except Fault (Resolved × Store) := do
  let (_, store) ← Thread.prepareAccess store th created
  let (flushed, store) ← Thread.setComm store th uc.name
  let ((status, st), store) ← Unwind.getEntries unwinder store th uc st
  return (⟨status, st, flushed⟩, store)

/-- `bpf_unwind_ctx__resolve_callchain`. -/
def resolveCallchain (lookup : Lookup τ) (machine : State τ) (st : Option Stacktrace)
    (uc : UnwindCtx) (created : Bool) (unwinder : Unwinder) : Except Fault (Resolved × State τ) :=
  withThread lookup machine uc.tgid uc.tid (resolveThread st uc created unwinder)

/-- `struct dl_phdr_info`. -/
structure PhdrInfo where
  startAddr : U64
  endAddr : U64
  dlpiName : List Char
  deriving DecidableEq

/-- The walk of `bpf_dl_iterate_phdr` over the maps not visited yet; `callback`
answers its calls in turn. -/
def iteratePhdr (callback : Nat → PhdrInfo → Int) (store : Store) :
    List (Ref Map) → Nat → Except Fault (Int × List PhdrInfo)
  | [], _ => .ok (0, [])
  | pos :: rest, turn => do
      let map ← deref store.mapObjs pos
      let dso ← deref store.dsos map.dso
      let info : PhdrInfo := ⟨map.start, map.stop, dso.longName⟩
      if callback turn info < 0 then return (-1, [info])
      else do
        let (status, infos) ← iteratePhdr callback store rest (turn + 1)
        return (status, info :: infos)

/-- What `bpf_dl_iterate_phdr` does with the thread it has found. -/
def iterateThread (callback : Nat → PhdrInfo → Int) (store : Store) (th : Ref Thread) :
    Except Fault ((Int × List PhdrInfo) × Store) := do
  let thread ← deref store.threads th
  match thread.maps with
  | none => .error .dangling
  | some maps => do
      let object ← deref store.maps maps
      let visited ← iteratePhdr callback store object.head 0
      return (visited, store)

/-- `bpf_dl_iterate_phdr`: the status and the infos the callback was given. -/
def dlIteratePhdr (lookup : Lookup τ) (machine : State τ) (tgid : Pid)
    (callback : Nat → PhdrInfo → Int) : Except Fault ((Int × List PhdrInfo) × State τ) :=
  withThread lookup machine tgid tgid (iterateThread callback)

/-- A call of the public interface, with everything it gets from outside. -/
inductive Call where
  | threadMap (tgid tid : Pid) (text : Option (List Char)) (scratch : Scratch) (created : Bool)
  | resolveCallchain (st : Option Stacktrace) (uc : UnwindCtx) (created : Bool)
      (unwinder : Unwinder)
  | dlIteratePhdr (tgid : Pid) (callback : Nat → PhdrInfo → Int)

/-- What a call returns. -/
inductive Reply where
  | mapped (status : Int)
  | resolved (result : Resolved)
  | iterated (status : Int) (infos : List PhdrInfo)

def Call.step (lookup : Lookup τ) : Call → State τ → Except Fault (Reply × State τ)
  | .threadMap tgid tid text scratch created, machine => do
      let (status, machine) ← DwBpf.threadMap lookup machine tgid tid text scratch created
      return (.mapped status, machine)
  | .resolveCallchain st uc created unwinder, machine => do
      let (result, machine) ← DwBpf.resolveCallchain lookup machine st uc created unwinder
      return (.resolved result, machine)
  | .dlIteratePhdr tgid callback, machine => do
      let ((status, infos), machine) ← DwBpf.dlIteratePhdr lookup machine tgid callback
      return (.iterated status infos, machine)

/-- A call that maps one executable file into a process. -/
def Call.mapLs (tgid tid : Pid) : Call :=
  .threadMap tgid tid (some "00400000-0048c000 r-xp 00000000 fd:03 960637 /bin/ls\n".toList)
    ⟨⟨0, 0, 0, 0, 0, 0, 0, 0, 0, 0, 0, []⟩, fun _ => '\x00'⟩ true

/-- A call that resolves a sample without a stack, into no stacktrace. -/
def Call.sample (tgid tid : Pid) : Call :=
  .resolveCallchain none ⟨0, tid, tgid, fun _ => 0, fun _ => 0, 0, fun _ => 0⟩ true ⟨[], 0, []⟩

/-- A call on the machine of the source. -/
def Machine.step : Call → Machine → Except Fault (Reply × Machine) :=
  Call.step Machine.findnewThread

/-- A call on a machine with a plain table. -/
def Plain.step : Call → Plain → Except Fault (Reply × Plain) := Call.step Plain.findnewThread

end DwBpf
