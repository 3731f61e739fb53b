import DwBpf.Dso.Data
import DwBpf.Unwind.Registers
import DwBpf.Foundation.Heap

/-! # Threads, maps, map and dso objects

The objects of `thread.h`, `map.h` and `dso.h` and the functions that take and
drop references to them. Counters are 32-bit and wrap around. Intrusive nodes
are modelled by where they are linked; `struct thread` keeps its tree node and
its list node in one union, so a thread has a single such field.
-/

namespace DwBpf

structure Dso where
  longName : List Char
  shortName : List Char
  refcnt : U32
  data : DsoData

/-- `struct map`. `listed` is the maps object in whose list `node` is, and
`linked` tells whether `rb_node` is in a tree. -/
structure Map where
  start : U64
  stop : U64
  pgoff : U64
  prot : U32
  flags : U32
  maj : U32
  min : U32
  ino : U64
  inoGeneration : U64
  dso : Ref Dso
  listed : Option Nat
  linked : Bool
  refcnt : U32

structure Maps where
  entries : Tree (Ref Map)
  head : List (Ref Map)
  refcnt : U32

/-- `THREADS__TABLE_SIZE`. -/
abbrev threadsTableSize : Nat := 256

/-- Where the union of `rb_node` and `node` in `struct thread` is linked. -/
inductive ThreadNode where
  | clear
  | tree
  | dead (bucket : Fin threadsTableSize)
  deriving DecidableEq

structure Thread where
  tgid : Pid
  tid : Pid
  maps : Option (Ref Maps)
  name : Comm
  addrSpace : Bool
  ulops : Bool
  node : ThreadNode
  refcnt : U32

/-- All objects of a machine, the `dead` lists of its buckets, and its `dsos`. -/
structure Store where
  threads : Heap Thread
  maps : Heap Maps
  mapObjs : Heap Map
  dsos : Heap Dso
  dead : Fin threadsTableSize → List (Ref Thread)
  dsosHead : List (Ref Dso)
  dsosRoot : Tree (Ref Dso)

def Store.empty : Store where
  threads := .empty
  maps := .empty
  mapObjs := .empty
  dsos := .empty
  dead := fun _ => []
  dsosHead := []
  dsosRoot := .nil

/-- Follow a pointer; the object must not have been destroyed. -/
def deref {α : Type} (heap : Heap α) (ref : Ref α) : Except Fault α :=
  match heap.get? ref with
  | some value => .ok value
  | none => .error .dangling

theorem deref_eq_ok_iff {α : Type} {heap : Heap α} {ref : Ref α} {value : α} :
    deref heap ref = .ok value ↔ heap.get? ref = some value := by
  unfold deref
  cases heap.get? ref <;> simp

theorem deref_of_get? {α : Type} {heap : Heap α} {ref : Ref α} {value : α}
    (live : heap.get? ref = some value) : deref heap ref = .ok value :=
  deref_eq_ok_iff.mpr live

namespace Store

@[simps] def modifyThread (store : Store) (ref : Ref Thread) (change : Thread → Thread) : Store :=
  { store with threads := store.threads.modify ref change }

@[simps] def modifyMaps (store : Store) (ref : Ref Maps) (change : Maps → Maps) : Store :=
  { store with maps := store.maps.modify ref change }

@[simps] def modifyMap (store : Store) (ref : Ref Map) (change : Map → Map) : Store :=
  { store with mapObjs := store.mapObjs.modify ref change }

@[simps] def modifyDso (store : Store) (ref : Ref Dso) (change : Dso → Dso) : Store :=
  { store with dsos := store.dsos.modify ref change }

theorem modifyThread_modifyThread (store : Store) (ref : Ref Thread)
    (first second : Thread → Thread) :
    (store.modifyThread ref first).modifyThread ref second =
      store.modifyThread ref (second ∘ first) := by
  simp only [modifyThread, Heap.modify_modify]

end Store

/-- `dso__get`. -/
def Dso.get (store : Store) (ref : Ref Dso) : Except Fault Store := do
  let _ ← deref store.dsos ref
  return store.modifyDso ref fun dso => { dso with refcnt := dso.refcnt + 1 }

/-- `dso__put`; the destructor `dso__delete` has an empty body. -/
def Dso.put (store : Store) (ref : Ref Dso) : Except Fault Store := do
  let _ ← deref store.dsos ref
  return store.modifyDso ref fun dso => { dso with refcnt := dso.refcnt - 1 }

/-- `map__get`. -/
def Map.get (store : Store) (ref : Ref Map) : Except Fault Store := do
  let _ ← deref store.mapObjs ref
  return store.modifyMap ref fun map => { map with refcnt := map.refcnt + 1 }

/-- `map__exit` and the `free` of `map__delete`. -/
def Map.delete (store : Store) (ref : Ref Map) : Except Fault Store := do
  let map ← deref store.mapObjs ref
  if map.linked then .error (.assertion .mapUnlinked)
  else do
    let store ← Dso.put store map.dso
    return { store with mapObjs := store.mapObjs.free ref }

/-- `list_del_init` of the node of a map. -/
def Map.listDel (store : Store) (ref : Ref Map) (listed : Option Nat) : Store :=
  let store := match listed with
    | some owner => store.modifyMaps ⟨owner⟩ fun maps => { maps with head := maps.head.erase ref }
    | none => store
  store.modifyMap ref fun map => { map with listed := none }

/-- `map__put`. -/
def Map.put (store : Store) (ref : Ref Map) : Except Fault Store := do
  let map ← deref store.mapObjs ref
  let store := store.modifyMap ref fun map => { map with refcnt := map.refcnt - 1 }
  if map.refcnt - 1 = 0 then Map.delete (Map.listDel store ref map.listed) ref
  else return store

/-- `maps__get`, which takes `NULL` too. -/
def Maps.get (store : Store) : Option (Ref Maps) → Except Fault Store
  | none => .ok store
  | some ref => do
      let _ ← deref store.maps ref
      return store.modifyMaps ref fun maps => { maps with refcnt := maps.refcnt + 1 }

/-- The walk of `__maps__purge` over the maps left in the tree; erasing the first
of them leaves a tree of the others. -/
def Maps.purge (ref : Ref Maps) : List (Ref Map) → Store → Except Fault Store
  | [], store => .ok store
  | pos :: rest, store => do
      let store := store.modifyMaps ref fun maps => { maps with entries := Tree.ofList rest }
      let store := store.modifyMap pos fun map => { map with linked := false }
      let store ← Map.put store pos
      Maps.purge ref rest store

/-- `maps__delete`. -/
def Maps.delete (store : Store) (ref : Ref Maps) : Except Fault Store := do
  let maps ← deref store.maps ref
  let store ← Maps.purge ref maps.entries.toList store
  return { store with maps := store.maps.free ref }

/-- `maps__put`, which takes `NULL` too. -/
def Maps.put (store : Store) : Option (Ref Maps) → Except Fault Store
  | none => .ok store
  | some ref => do
      let maps ← deref store.maps ref
      let store := store.modifyMaps ref fun maps => { maps with refcnt := maps.refcnt - 1 }
      if maps.refcnt - 1 = 0 then Maps.delete store ref else return store

/-- The object `maps__new` allocates. -/
def Maps.new : Maps := ⟨.nil, [], 1⟩

/-- `maps__empty`, through `maps__first` and `rb_first`. -/
def Maps.empty (maps : Maps) : Bool := maps.entries.first?.isNone

/-- The object `thread__new` allocates. -/
def Thread.new (tgid tid : Pid) : Thread where
  tgid := tgid
  tid := tid
  maps := none
  name := fun _ => 0
  addrSpace := false
  ulops := false
  node := .clear
  refcnt := 1

/-- `thread__get`. -/
def Thread.get (store : Store) (ref : Ref Thread) : Except Fault Store := do
  let _ ← deref store.threads ref
  return store.modifyThread ref fun thread => { thread with refcnt := thread.refcnt + 1 }

/-- `thread__delete`. -/
def Thread.delete (store : Store) (ref : Ref Thread) : Except Fault Store := do
  let thread ← deref store.threads ref
  if thread.node ≠ .clear then .error (.assertion .threadUnlinked)
  else do
    let store ← Maps.put store thread.maps
    return { store with threads := store.threads.free ref }

/-- `thread__put`. The `list_del_init` of the last reference takes the thread off
its bucket's list of dead threads and clears the node; on a node that is not in
a list it would follow the pointers of another structure. -/
def Thread.put (store : Store) (ref : Ref Thread) : Except Fault Store := do
  let thread ← deref store.threads ref
  let store := store.modifyThread ref fun thread => { thread with refcnt := thread.refcnt - 1 }
  if thread.refcnt - 1 = 0 then
    match thread.node with
    | .dead bucket =>
        let store := store.modifyThread ref fun thread => { thread with node := .clear }
        Thread.delete { store with
          dead := Function.update store.dead bucket ((store.dead bucket).erase ref) } ref
    | _ => .error .linkedPut
  else return store

section Live

variable {store : Store}

theorem Thread.get_of_live {ref : Ref Thread} {thread : Thread}
    (live : store.threads.get? ref = some thread) :
    Thread.get store ref =
      .ok (store.modifyThread ref fun thread => { thread with refcnt := thread.refcnt + 1 }) := by
  simp only [Thread.get, deref_of_get? live, ok_bind, pure_eq_ok]

/-- Dropping a reference to a linked thread is an error exactly when it is the
last one. -/
theorem Thread.put_of_linked {ref : Ref Thread} {thread : Thread}
    (live : store.threads.get? ref = some thread) (linked : thread.node = .tree) :
    Thread.put store ref =
      if thread.refcnt - 1 = 0 then .error .linkedPut
      else .ok (store.modifyThread ref fun thread =>
        { thread with refcnt := thread.refcnt - 1 }) := by
  simp only [Thread.put, deref_of_get? live, ok_bind, pure_eq_ok, linked]

theorem Maps.get_of_live {ref : Ref Maps} {maps : Maps} (live : store.maps.get? ref = some maps) :
    Maps.get store (some ref) =
      .ok (store.modifyMaps ref fun maps => { maps with refcnt := maps.refcnt + 1 }) := by
  simp only [Maps.get, deref_of_get? live, ok_bind, pure_eq_ok]

theorem Maps.empty_iff {maps : Maps} : maps.empty = true ↔ maps.entries.toList = [] := by
  rw [Maps.empty, Tree.first?_eq_head?]
  cases maps.entries.toList <;> simp

/-- The objects after a reference to an empty maps object was dropped. -/
def Store.dropMaps (store : Store) (ref : Ref Maps) (maps : Maps) : Store :=
  { store with maps :=
      if maps.refcnt - 1 = 0 then store.maps.free ref
      else store.maps.modify ref fun maps => { maps with refcnt := maps.refcnt - 1 } }

/-- The put of maps without ranges counts down, and frees them with the last reference. -/
theorem Maps.put_of_empty {ref : Ref Maps} {maps : Maps} (live : store.maps.get? ref = some maps)
    (empty : maps.entries.toList = []) :
      Maps.put store (some ref) = .ok (store.dropMaps ref maps) := by
  simp only [Maps.put, deref_of_get? live, ok_bind, pure_eq_ok, Store.dropMaps]
  by_cases last : maps.refcnt - 1 = 0
  · have dropped : (store.modifyMaps ref fun maps =>
        { maps with refcnt := maps.refcnt - 1 }).maps.get? ref =
        some { maps with refcnt := maps.refcnt - 1 } := by
      simp [live]
    simp only [last, ↓reduceIte, Maps.delete, deref_of_get? dropped, ok_bind, empty, Maps.purge,
      pure_eq_ok]
    simp only [Store.modifyMaps, Heap.free_modify]
  · simp only [last, ↓reduceIte]
    rfl

end Live

end DwBpf
