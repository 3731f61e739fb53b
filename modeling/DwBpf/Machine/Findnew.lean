import DwBpf.Machine.Store

/-! # Looking up threads

`machine__findnew_thread` with the functions it is mutually recursive with. A
lookup of a thread looks up the leader of its group, which is a lookup of the
pair `(tgid, tgid)`; the functions that do so take that lookup as an argument.
They are stated for any kind of thread table, and instantiated here with the
table of the source, 256 buckets with a search tree and the last match each.
-/

namespace DwBpf

/-- A machine: its objects and its table of threads. -/
structure State (τ : Type) where
  store : Store
  table : τ

/-- A lookup by `(tgid, tid)`; the source returns `NULL` for `none`. -/
abbrev Lookup (τ : Type) := State τ → Pid → Pid → Except Fault (Option (Ref Thread) × State τ)

variable {τ : Type}

@[simps] def State.modifyThread (machine : State τ) (ref : Ref Thread) (change : Thread → Thread) :
    State τ :=
  { machine with store := machine.store.modifyThread ref change }

/-- `thread__new`, with the node linked into a table. -/
def Store.newThread (store : Store) (tgid tid : Pid) : Store :=
  { store with threads := store.threads.alloc { Thread.new tgid tid with node := .tree } }

/-- `maps__new`, stored in the `maps` field of a thread. -/
def Store.newMaps (store : Store) (ref : Ref Thread) : Store :=
  { store with maps := store.maps.alloc Maps.new }.modifyThread ref
    fun thread => { thread with maps := some store.maps.nextRef }

/-- A thread gives up its maps, which `machine__update_thread_tgid` asserts to be empty. -/
def putEmptyMaps (store : Store) : Option (Ref Maps) → Except Fault Store
  | none => .ok store
  | some maps => do
      let object ← deref store.maps maps
      if object.empty then Maps.put store (some maps) else .error (.assertion .brokenMaps)

/-- The part of `machine__update_thread_tgid` behind the lookup of the leader. -/
def updateThreadMaps (store : Store) (th leader : Ref Thread) : Except Fault Store := do
  let found ← deref store.threads leader
  let store := if found.maps = none then store.newMaps leader else store
  let found ← deref store.threads leader
  match found.maps with
  | none => .error (.assertion .outErr)
  | some maps =>
      let thread ← deref store.threads th
      if thread.maps = some maps then return store
      else do
        let store ← putEmptyMaps store thread.maps
        let store ← Maps.get store (some maps)
        Thread.put (store.modifyThread th fun thread => { thread with maps := some maps }) leader

/-- `machine__update_thread_tgid`. -/
def updateThreadTgid (lookup : Lookup τ) (machine : State τ) (th : Ref Thread) (tgid : Pid) :
    Except Fault (State τ) := do
  let thread ← deref machine.store.threads th
  if tgid = thread.tgid then return machine
  else
    let machine := machine.modifyThread th fun thread => { thread with tgid := tgid }
    if tgid = thread.tid then return machine
    else do
      let (found, machine) ← lookup machine tgid tgid
      match found with
      | none => .error (.assertion .outErr)
      | some leader => do
          let store ← updateThreadMaps machine.store th leader
          return { machine with store := store }

/-- The part of `thread__init_maps` behind the lookup of the leader. -/
def shareMaps (store : Store) (th leader : Ref Thread) : Except Fault Store := do
  let found ← deref store.threads leader
  let store ← Maps.get store found.maps
  Thread.put (store.modifyThread th fun thread => { thread with maps := found.maps }) leader

/-- The branches of `thread__init_maps`: new maps for a leader, those of its leader
for another thread. -/
def leaderMaps (lookup : Lookup τ) (machine : State τ) (th : Ref Thread) (tgid tid : Pid) :
    Except Fault (State τ) :=
  if tgid = tid then .ok { machine with store := machine.store.newMaps th }
  else do
    let (found, machine) ← lookup machine tgid tgid
    match found with
    | none => return machine
    | some leader => do
        let store ← shareMaps machine.store th leader
        return { machine with store := store }

/-- `thread__init_maps`: whether the thread has maps in the end. -/
def Thread.initMaps (lookup : Lookup τ) (machine : State τ) (th : Ref Thread) :
    Except Fault (Bool × State τ) := do
  let thread ← deref machine.store.threads th
  let machine ← leaderMaps lookup machine th thread.tgid thread.tid
  let thread ← deref machine.store.threads th
  return (thread.maps.isSome, machine)

/-- What a lookup does with a thread it has found: adopt the group asked for and
take a reference. -/
def matched (lookup : Lookup τ) (machine : State τ) (th : Ref Thread) (tgid : Pid) :
    Except Fault (Option (Ref Thread) × State τ) := do
  let machine ← updateThreadTgid lookup machine th tgid
  let store ← Thread.get machine.store th
  return (some th, { machine with store := store })

/-- `struct threads`; its list of dead threads is kept in the store. -/
structure Threads where
  entries : Tree (Ref Thread)
  nr : U32
  lastMatch : Option (Ref Thread)

/-- `struct machine`. -/
abbrev Machine := State (Fin threadsTableSize → Threads)

namespace Machine

/-- `machine__new`. -/
def new : Machine := ⟨Store.empty, fun _ => ⟨.nil, 0, none⟩⟩

/-- The index in `machine__threads`. -/
def bucket (tid : Pid) : Fin threadsTableSize :=
  ⟨tid.toNat % threadsTableSize, Nat.mod_lt _ (by decide)⟩

def modifyBucket (machine : Machine) (index : Fin threadsTableSize)
    (change : Threads → Threads) : Machine :=
  { machine with table := Function.update machine.table index (change (machine.table index)) }

section Bucket

variable (machine : Machine) (index : Fin threadsTableSize) (change : Threads → Threads)

@[simp] theorem modifyBucket_store : (machine.modifyBucket index change).store = machine.store :=
    rfl

@[simp] theorem modifyBucket_self :
    (machine.modifyBucket index change).table index = change (machine.table index) :=
  Function.update_self ..

theorem modifyBucket_of_ne {other : Fin threadsTableSize} (different : other ≠ index) :
    (machine.modifyBucket index change).table other = machine.table other :=
  Function.update_of_ne different ..

end Bucket

/-- The comparisons of the descent for a thread. A destroyed thread stops the
descent, and following the pointer to it fails. -/
def steer (store : Store) (tid : Pid) (ref : Ref Thread) : Ordering :=
  match store.threads.get? ref with
  | none => .eq
  | some thread =>
      if thread.tid = tid then .eq
      else if tid.slt thread.tid then .lt
      else .gt

/-- The descent and the creation of `____machine__findnew_thread`. -/
def descend (lookup : Lookup (Fin threadsTableSize → Threads)) (machine : Machine)
    (index : Fin threadsTableSize) (tgid tid : Pid) (create : Bool) :
    Except Fault (Option (Ref Thread) × Machine) :=
  match (machine.table index).entries.locate (steer machine.store tid) [] with
  | .inl th => do
      let _ ← deref machine.store.threads th
      matched lookup
        (machine.modifyBucket index fun threads => { threads with lastMatch := some th }) th tgid
  | .inr path =>
      if create then do
        let th := machine.store.threads.nextRef
        let machine : Machine := ⟨machine.store.newThread tgid tid, machine.table⟩
        let (ready, machine) ← Thread.initMaps lookup
          (machine.modifyBucket index fun threads =>
            { threads with entries := Tree.link path th }) th
        if ready then do
          let store ← Thread.get machine.store th
          let machine : Machine := ⟨store, machine.table⟩
          return (some th, modifyBucket machine index fun threads =>
            { threads with lastMatch := some th, nr := threads.nr + 1 })
        else do
          let machine := modifyBucket machine index fun threads =>
            { threads with entries := Tree.ofList (threads.entries.toList.erase th) }
          let store ← Thread.put
            (machine.store.modifyThread th fun thread => { thread with node := .clear }) th
          return (none, { machine with store := store })
      else return (none, machine)

/-- `____machine__findnew_thread` on the bucket `index`. -/
def findnewThreadIn (lookup : Lookup (Fin threadsTableSize → Threads)) (machine : Machine)
    (index : Fin threadsTableSize) (tgid tid : Pid) (create : Bool) :
    Except Fault (Option (Ref Thread) × Machine) :=
  match (machine.table index).lastMatch with
  | some th => do
      let thread ← deref machine.store.threads th
      if thread.tid = tid then matched lookup machine th tgid
      else
        let machine := machine.modifyBucket index fun threads => { threads with lastMatch := none }
        descend lookup machine index tgid tid create
  | none => descend lookup machine index tgid tid create

/-- `__machine__findnew_thread`, with a bound on the depth of its recursion. -/
def findnewThreadWithin : Nat → Lookup (Fin threadsTableSize → Threads)
  | 0, _, _, _ => .error .tooDeep
  | depth + 1, machine, tgid, tid =>
      findnewThreadIn (findnewThreadWithin depth) machine (bucket tid) tgid tid true

/-- `machine__findnew_thread`. The lookup of a leader recurses no further. -/
def findnewThread : Lookup (Fin threadsTableSize → Threads) := findnewThreadWithin 2

end Machine

end DwBpf
