import DwBpf.Machine.Teardown

/-! # Deleting a machine in a build without assertions

`machine__delete` as a build with `NDEBUG` has it. A deletion in which every assertion
holds is the same in both builds (`DwBpf.Teardown.Ndebug.extends_machineDelete`).
-/

namespace DwBpf

namespace Teardown.Ndebug

variable {state : Teardown}

/-- `map__delete`. -/
def mapDelete (state : Teardown) (ref : Ref Map) : Except Fault Teardown := do
  let map ← deref state.store.mapObjs ref
  let state ← dsoPut state map.dso
  return (state.withStore { state.store with mapObjs := state.store.mapObjs.free ref }).log
    (.free (.map ref))

/-- `map__put`. -/
def mapPut (state : Teardown) (ref : Ref Map) : Except Fault Teardown := do
  let map ← deref state.store.mapObjs ref
  let state := (state.withStore (state.store.modifyMap ref fun map =>
    { map with refcnt := map.refcnt - 1 })).log (.put (.map ref) map.refcnt)
  if map.refcnt - 1 = 0 then
    mapDelete (state.withStore (Map.listDel state.store ref map.listed)) ref
  else return state

theorem extends_mapPut (ref : Ref Map) :
    Extends (Teardown.mapPut state ref) (mapPut state ref) := by
  apply (extends_refl _).bind
  intro map
  refine extends_ite ?_ (extends_refl _)
  apply (extends_refl _).bind
  intro object
  split
  · exact extends_error _ _
  · exact extends_refl _

/-- The walk of `__maps__purge`. -/
def mapsPurge (ref : Ref Maps) : List (Ref Map) → Teardown → Except Fault Teardown
  | [], state => .ok state
  | pos :: rest, state => do
      let store := state.store.modifyMaps ref fun maps => { maps with entries := Tree.ofList rest }
      let store := store.modifyMap pos fun map => { map with linked := false }
      let state ← mapPut (state.withStore store) pos
      mapsPurge ref rest state

theorem extends_mapsPurge (ref : Ref Maps) (entries : List (Ref Map)) :
    Extends (Teardown.mapsPurge ref entries state) (mapsPurge ref entries state) := by
  induction entries generalizing state with
  | nil => exact extends_refl _
  | cons pos rest ih =>
      apply (extends_mapPut pos).bind
      intro next
      exact ih

/-- `maps__delete`. -/
def mapsDelete (state : Teardown) (ref : Ref Maps) : Except Fault Teardown := do
  let maps ← deref state.store.maps ref
  let state ← mapsPurge ref maps.entries.toList state
  return (state.withStore { state.store with maps := state.store.maps.free ref }).log
    (.free (.maps ref))

/-- `maps__put`, which takes `NULL` too. -/
def mapsPut (state : Teardown) : Option (Ref Maps) → Except Fault Teardown
  | none => .ok state
  | some ref => do
      let maps ← deref state.store.maps ref
      let state := (state.withStore (state.store.modifyMaps ref fun maps =>
        { maps with refcnt := maps.refcnt - 1 })).log (.put (.maps ref) maps.refcnt)
      if maps.refcnt - 1 = 0 then mapsDelete state ref else return state

theorem extends_mapsPut (maps : Option (Ref Maps)) :
    Extends (Teardown.mapsPut state maps) (mapsPut state maps) := by
  cases maps with
  | none => exact extends_refl _
  | some ref =>
      apply (extends_refl _).bind
      intro maps
      refine extends_ite ?_ (extends_refl _)
      apply (extends_refl _).bind
      intro object
      apply (extends_mapsPurge ref _).bind
      intro purged
      exact extends_refl _

/-- `thread__delete`. -/
def threadDelete (state : Teardown) (ref : Ref Thread) : Except Fault Teardown := do
  let thread ← deref state.store.threads ref
  let state ← mapsPut state thread.maps
  return (state.withStore { state.store with threads := state.store.threads.free ref }).log
    (.free (.thread ref))

/-- `thread__put`. -/
def threadPut (state : Teardown) (ref : Ref Thread) : Except Fault Teardown := do
  let thread ← deref state.store.threads ref
  let state := (state.withStore (state.store.modifyThread ref fun thread =>
    { thread with refcnt := thread.refcnt - 1 })).log (.put (.thread ref) thread.refcnt)
  if thread.refcnt - 1 = 0 then
    match thread.node with
    | .dead bucket => threadDelete (state.listDelInit ref bucket) ref
    | _ => .error .linkedPut
  else return state

theorem extends_threadPut (ref : Ref Thread) :
    Extends (Teardown.threadPut state ref) (threadPut state ref) := by
  apply (extends_refl _).bind
  intro thread
  refine extends_ite ?_ (extends_refl _)
  cases thread.node with
  | clear | tree => exact extends_error _ _
  | dead bucket =>
      apply (extends_refl _).bind
      intro object
      split
      · exact extends_error _ _
      · apply (extends_mapsPut object.maps).bind
        intro dropped
        exact extends_refl _

/-- `__machine__remove_thread`. -/
def removeThread (rb : RbErase) (state : Teardown) (th : Ref Thread) : Except Fault Teardown := do
  let thread ← deref state.store.threads th
  let index := Machine.bucket thread.tid
  let machine := state.machine.modifyBucket index fun threads =>
    if threads.lastMatch = some th then { threads with lastMatch := none } else threads
  threadPut ((rbErase rb { state with machine := machine } th index).listAddTail th index) th

theorem extends_removeThread (rb : RbErase) (th : Ref Thread) :
    Extends (Teardown.removeThread rb state th) (removeThread rb state th) := by
  apply (extends_refl _).bind
  intro thread
  dsimp only
  split
  · exact extends_error _ _
  · exact extends_threadPut th

/-- The walk of `machine__delete_threads` over the threads left in a bucket. -/
def deleteEntries (rb : RbErase) : List (Ref Thread) → Teardown → Except Fault Teardown
  | [], state => .ok state
  | th :: rest, state => do
      let state ← removeThread rb state th
      deleteEntries rb rest state

theorem extends_deleteEntries (rb : RbErase) (entries : List (Ref Thread)) :
    Extends (Teardown.deleteEntries rb entries state) (deleteEntries rb entries state) := by
  induction entries generalizing state with
  | nil => exact extends_refl _
  | cons th rest ih =>
      apply (extends_removeThread rb th).bind
      intro next
      exact ih

/-- `machine__delete_threads`, from some bucket on. -/
def deleteThreads (rb : RbErase) : List (Fin threadsTableSize) → Teardown → Except Fault Teardown
  | [], state => .ok state
  | index :: rest, state => do
      let state ← deleteEntries rb (state.machine.table index).entries.toList state
      deleteThreads rb rest state

theorem extends_deleteThreads (rb : RbErase) (buckets : List (Fin threadsTableSize)) :
    Extends (Teardown.deleteThreads rb buckets state) (deleteThreads rb buckets state) := by
  induction buckets generalizing state with
  | nil => exact extends_refl _
  | cons index rest ih =>
      apply (extends_deleteEntries rb _).bind
      intro next
      exact ih

/-- `machine__delete`, up to the `free` of the machine. -/
def machineDelete (rb : RbErase) (state : Teardown) : Except Fault Teardown := do
  let state ← deleteThreads rb (List.finRange threadsTableSize) state
  dsosPurge state.store.dsosHead state

theorem extends_machineDelete (rb : RbErase) (state : Teardown) :
    Extends (Teardown.machineDelete rb state) (machineDelete rb state) := by
  apply (extends_deleteThreads rb _).bind
  intro next
  exact extends_refl _

end Teardown.Ndebug

end DwBpf
