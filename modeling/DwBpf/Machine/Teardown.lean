import DwBpf.Foundation.Links
import DwBpf.Foundation.RefLedger
import DwBpf.Machine.Findnew

/-! # Deleting a machine

`machine__delete` with the functions that it leads to. Puts of references and
destructions of objects are recorded next to the machine, and the union of `rb_node`
and `node` in `struct thread` is kept as the words that it consists of: `links` has
`node.next`, which is the parent word of `rb_node`, and `node.prev`. The words of a
thread in a tree belong to the tree, and what `rb_erase` writes there is an argument.
-/

namespace DwBpf

/-- The objects that are counted. -/
inductive Object where
  | thread (ref : Ref Thread)
  | maps (ref : Ref Maps)
  | map (ref : Ref Map)
  | dso (ref : Ref Dso)
  deriving DecidableEq

/-- Where a list of dead threads leads: to the node of a thread, or to the head of the list
in a bucket. -/
inductive DeadNode where
  | thread (ref : Ref Thread)
  | head (bucket : Fin threadsTableSize)
  deriving DecidableEq

/-- What `rb_erase` does to the words of the threads that stay in the tree. -/
structure RbErase where
  words : List (Ref Thread) → Links DeadNode → Links DeadNode
  next : ∀ entries links node, (∀ th ∈ entries, node ≠ .thread th) →
    (words entries links).next node = links.next node
  prev : ∀ entries links node, (∀ th ∈ entries, node ≠ .thread th) →
    (words entries links).prev node = links.prev node

/-- A machine that is being deleted. -/
structure Teardown where
  machine : Machine
  links : Links DeadNode
  events : List (RefEvent Object 32)

namespace Teardown

abbrev store (state : Teardown) : Store := state.machine.store

def withStore (state : Teardown) (store : Store) : Teardown :=
  { state with machine := { state.machine with store := store } }

def log (state : Teardown) (event : RefEvent Object 32) : Teardown :=
  { state with events := state.events ++ [event] }

/-- `dso__put`. -/
def dsoPut (state : Teardown) (ref : Ref Dso) : Except Fault Teardown := do
  let dso ← deref state.store.dsos ref
  return (state.withStore (state.store.modifyDso ref fun dso =>
    { dso with refcnt := dso.refcnt - 1 })).log (.put (.dso ref) dso.refcnt)

/-- `map__delete`. -/
def mapDelete (state : Teardown) (ref : Ref Map) : Except Fault Teardown := do
  let map ← deref state.store.mapObjs ref
  if map.linked then .error (.assertion .mapUnlinked)
  else do
    let state ← dsoPut state map.dso
    return (state.withStore { state.store with mapObjs := state.store.mapObjs.free ref }).log
      (.free (.map ref))

/-- `map__put`. -/
def mapPut (state : Teardown) (ref : Ref Map) : Except Fault Teardown := do
  let map ← deref state.store.mapObjs ref
  let state := (state.withStore (state.store.modifyMap ref fun map =>
    { map with refcnt := map.refcnt - 1 })).log (.put (.map ref) map.refcnt)
  if map.refcnt - 1 = 0 then
    mapDelete (state.withStore (Map.listDel state.store ref map.listed)) ref
  else return state

/-- The walk of `__maps__purge` over the maps left in the tree. -/
def mapsPurge (ref : Ref Maps) : List (Ref Map) → Teardown → Except Fault Teardown
  | [], state => .ok state
  | pos :: rest, state => do
      let store := state.store.modifyMaps ref fun maps => { maps with entries := Tree.ofList rest }
      let store := store.modifyMap pos fun map => { map with linked := false }
      let state ← mapPut (state.withStore store) pos
      mapsPurge ref rest state

/-- `maps__delete`. -/
def mapsDelete (state : Teardown) (ref : Ref Maps) : Except Fault Teardown := do
  let maps ← deref state.store.maps ref
  let state ← mapsPurge ref maps.entries.toList state
  return (state.withStore { state.store with maps := state.store.maps.free ref }).log
    (.free (.maps ref))

/-- `maps__put`, which takes `NULL` too. -/
def mapsPut (state : Teardown) : Option (Ref Maps) → Except Fault Teardown
  | none => .ok state
  | some ref => do
      let maps ← deref state.store.maps ref
      let state := (state.withStore (state.store.modifyMaps ref fun maps =>
        { maps with refcnt := maps.refcnt - 1 })).log (.put (.maps ref) maps.refcnt)
      if maps.refcnt - 1 = 0 then mapsDelete state ref else return state

/-- `thread__delete`, whose assertion reads the parent word. -/
def threadDelete (state : Teardown) (ref : Ref Thread) : Except Fault Teardown := do
  let thread ← deref state.store.threads ref
  if state.links.next (.thread ref) ≠ .thread ref then .error (.assertion .threadUnlinked)
  else do
    let state ← mapsPut state thread.maps
    return (state.withStore { state.store with threads := state.store.threads.free ref }).log
      (.free (.thread ref))

/-- `list_del_init` of the node of a thread in the list of dead threads of a bucket. -/
def listDelInit (state : Teardown) (ref : Ref Thread) (bucket : Fin threadsTableSize) : Teardown :=
  let store := state.store.modifyThread ref fun thread => { thread with node := .clear }
  { state.withStore { store with
      dead := Function.update store.dead bucket ((store.dead bucket).erase ref) } with
    links := state.links.delInit (.thread ref) }

/-- `thread__put`. -/
def threadPut (state : Teardown) (ref : Ref Thread) : Except Fault Teardown := do
  let thread ← deref state.store.threads ref
  let state := (state.withStore (state.store.modifyThread ref fun thread =>
    { thread with refcnt := thread.refcnt - 1 })).log (.put (.thread ref) thread.refcnt)
  if thread.refcnt - 1 = 0 then
    match thread.node with
    | .dead bucket => threadDelete (state.listDelInit ref bucket) ref
    | _ => .error .linkedPut
  else return state

/-- `rb_erase_init`, `RB_CLEAR_NODE` and `--threads->nr`. -/
def rbErase (rb : RbErase) (state : Teardown) (th : Ref Thread) (index : Fin threadsTableSize) :
    Teardown :=
  let rest := (state.machine.table index).entries.toList.erase th
  let words := rb.words rest state.links
  let machine := state.machine.modifyThread th fun thread => { thread with node := .clear }
  { state with
    machine := Machine.modifyBucket machine index fun threads =>
      { threads with entries := Tree.ofList rest, nr := threads.nr - 1 }
    links := { words with next := Function.update words.next (.thread th) (.thread th) } }

/-- `list_add_tail` to the list of dead threads of a bucket. -/
def listAddTail (state : Teardown) (th : Ref Thread) (index : Fin threadsTableSize) : Teardown :=
  let store := state.store.modifyThread th fun thread => { thread with node := .dead index }
  { state.withStore { store with
      dead := Function.update store.dead index (store.dead index ++ [th]) } with
    links := state.links.addTail (.thread th) (.head index) }

/-- `__machine__remove_thread`. -/
def removeThread (rb : RbErase) (state : Teardown) (th : Ref Thread) : Except Fault Teardown := do
  let thread ← deref state.store.threads th
  let index := Machine.bucket thread.tid
  let machine := state.machine.modifyBucket index fun threads =>
    if threads.lastMatch = some th then { threads with lastMatch := none } else threads
  if thread.refcnt = 0 then .error (.assertion .threadCounted)
  else threadPut ((rbErase rb { state with machine := machine } th index).listAddTail th index) th

/-- The walk of `machine__delete_threads` over the threads left in a bucket. -/
def deleteEntries (rb : RbErase) : List (Ref Thread) → Teardown → Except Fault Teardown
  | [], state => .ok state
  | th :: rest, state => do
      let state ← removeThread rb state th
      deleteEntries rb rest state

/-- `machine__delete_threads`, from some bucket on. -/
def deleteThreads (rb : RbErase) : List (Fin threadsTableSize) → Teardown → Except Fault Teardown
  | [], state => .ok state
  | index :: rest, state => do
      let state ← deleteEntries rb (state.machine.table index).entries.toList state
      deleteThreads rb rest state

/-- The walk of `dsos__purge` over the dsos left in the list. -/
def dsosPurge : List (Ref Dso) → Teardown → Except Fault Teardown
  | [], state => .ok state
  | pos :: rest, state => do
      let state ← dsoPut (state.withStore { state.store with
        dsosHead := state.store.dsosHead.erase pos }) pos
      dsosPurge rest state

/-- `machine__delete`, up to the `free` of the machine. -/
def machineDelete (rb : RbErase) (state : Teardown) : Except Fault Teardown := do
  let state ← deleteThreads rb (List.finRange threadsTableSize) state
  dsosPurge state.store.dsosHead state

/-- A machine before it is deleted. -/
def start (machine : Machine) (links : Links DeadNode) : Teardown := ⟨machine, links, []⟩

end Teardown

end DwBpf
