import DwBpf.Machine.Teardown

/-! # Threads and their maps in a build without assertions

The functions of `map.c`, `thread.c` and `machine.c` that have assertions, or call one
that has, as a build with `NDEBUG` has them. Each of them returns whatever the function
with assertions returns; where an assertion would fail, it goes on.
-/

namespace DwBpf

namespace Ndebug

variable {τ : Type} {store : Store}

/-- `map__delete`. -/
def mapDelete (store : Store) (ref : Ref Map) : Except Fault Store := do
  let map ← deref store.mapObjs ref
  let store ← Dso.put store map.dso
  return { store with mapObjs := store.mapObjs.free ref }

theorem extends_mapDelete (ref : Ref Map) :
    Extends (Map.delete store ref) (mapDelete store ref) := by
  apply (extends_refl _).bind
  intro map
  split
  · exact extends_error _ _
  · exact extends_refl _

/-- `map__put`. -/
def mapPut (store : Store) (ref : Ref Map) : Except Fault Store := do
  let map ← deref store.mapObjs ref
  let store := store.modifyMap ref fun map => { map with refcnt := map.refcnt - 1 }
  if map.refcnt - 1 = 0 then mapDelete (Map.listDel store ref map.listed) ref
  else return store

theorem extends_mapPut (ref : Ref Map) : Extends (Map.put store ref) (mapPut store ref) := by
  apply (extends_refl _).bind
  intro map
  exact extends_ite (extends_mapDelete ref) (extends_refl _)

/-- The walk of `__maps__purge`. -/
def mapsPurge (ref : Ref Maps) : List (Ref Map) → Store → Except Fault Store
  | [], store => .ok store
  | pos :: rest, store => do
      let store := store.modifyMaps ref fun maps => { maps with entries := Tree.ofList rest }
      let store := store.modifyMap pos fun map => { map with linked := false }
      let store ← mapPut store pos
      mapsPurge ref rest store

theorem extends_mapsPurge (ref : Ref Maps) (entries : List (Ref Map)) :
    Extends (Maps.purge ref entries store) (mapsPurge ref entries store) := by
  induction entries generalizing store with
  | nil => exact extends_refl _
  | cons pos rest ih =>
      apply (extends_mapPut pos).bind
      intro next
      exact ih

/-- `maps__delete`. -/
def mapsDelete (store : Store) (ref : Ref Maps) : Except Fault Store := do
  let maps ← deref store.maps ref
  let store ← mapsPurge ref maps.entries.toList store
  return { store with maps := store.maps.free ref }

/-- `maps__put`, which takes `NULL` too. -/
def mapsPut (store : Store) : Option (Ref Maps) → Except Fault Store
  | none => .ok store
  | some ref => do
      let maps ← deref store.maps ref
      let store := store.modifyMaps ref fun maps => { maps with refcnt := maps.refcnt - 1 }
      if maps.refcnt - 1 = 0 then mapsDelete store ref else return store

/-- A put of maps that returns does the same without assertions. -/
theorem extends_mapsPut (maps : Option (Ref Maps)) :
    Extends (Maps.put store maps) (mapsPut store maps) := by
  cases maps with
  | none => exact extends_refl _
  | some ref =>
      apply (extends_refl _).bind
      intro maps
      refine extends_ite ?_ (extends_refl _)
      apply (extends_refl _).bind
      intro object
      apply (extends_mapsPurge ref _).bind
      intro purged
      exact extends_refl _

/-- `thread__delete`. -/
def threadDelete (store : Store) (ref : Ref Thread) : Except Fault Store := do
  let thread ← deref store.threads ref
  let store ← mapsPut store thread.maps
  return { store with threads := store.threads.free ref }

/-- `thread__put`. -/
def threadPut (store : Store) (ref : Ref Thread) : Except Fault Store := do
  let thread ← deref store.threads ref
  let store := store.modifyThread ref fun thread => { thread with refcnt := thread.refcnt - 1 }
  if thread.refcnt - 1 = 0 then
    match thread.node with
    | .dead bucket =>
        let store := store.modifyThread ref fun thread => { thread with node := .clear }
        threadDelete { store with
          dead := Function.update store.dead bucket ((store.dead bucket).erase ref) } ref
    | _ => .error .linkedPut
  else return store

theorem extends_threadDelete (ref : Ref Thread) :
    Extends (Thread.delete store ref) (threadDelete store ref) := by
  apply (extends_refl _).bind
  intro thread
  split
  · exact extends_error _ _
  · apply (extends_mapsPut thread.maps).bind
    intro dropped
    exact extends_refl _

theorem extends_threadPut (ref : Ref Thread) :
    Extends (Thread.put store ref) (threadPut store ref) := by
  apply (extends_refl _).bind
  intro thread
  refine extends_ite ?_ (extends_refl _)
  cases thread.node with
  | clear | tree => exact extends_error _ _
  | dead bucket => exact extends_threadDelete ref

/-- A thread gives up its maps, whatever they hold. -/
def putMaps (store : Store) : Option (Ref Maps) → Except Fault Store
  | none => .ok store
  | some maps => do
      let _ ← deref store.maps maps
      mapsPut store (some maps)

theorem extends_putMaps (maps : Option (Ref Maps)) :
    Extends (putEmptyMaps store maps) (putMaps store maps) := by
  cases maps with
  | none => exact extends_refl _
  | some maps =>
      apply (extends_refl _).bind
      intro object
      split
      · exact extends_mapsPut (some maps)
      · exact extends_error _ _

/-- The part of `machine__update_thread_tgid` behind the lookup of the leader. -/
def updateThreadMaps (store : Store) (th leader : Ref Thread) : Except Fault Store := do
  let found ← deref store.threads leader
  let store := if found.maps = none then store.newMaps leader else store
  let found ← deref store.threads leader
  match found.maps with
  | none => return store
  | some maps =>
      let thread ← deref store.threads th
      if thread.maps = some maps then return store
      else do
        let store ← putMaps store thread.maps
        let store ← Maps.get store (some maps)
        threadPut (store.modifyThread th fun thread => { thread with maps := some maps }) leader

/-- The move to the maps of a leader is the same, as long as the maps left behind are
empty. -/
theorem extends_updateThreadMaps (th leader : Ref Thread) :
    Extends (DwBpf.updateThreadMaps store th leader) (updateThreadMaps store th leader) := by
  apply (extends_refl _).bind
  intro found
  apply (extends_refl _).bind
  intro again
  cases again.maps with
  | none => exact extends_error _ _
  | some maps =>
      apply (extends_refl _).bind
      intro thread
      refine extends_ite (extends_refl _) ?_
      apply (extends_putMaps thread.maps).bind
      intro dropped
      apply (extends_refl _).bind
      intro shared
      exact extends_threadPut leader

section Lookup

variable {lookup lookup' : Lookup τ}

/-- The second lookup returns whatever the first one returns. -/
def LookupExtends (lookup lookup' : Lookup τ) : Prop :=
  ∀ machine tgid tid, Extends (lookup machine tgid tid) (lookup' machine tgid tid)

/-- `machine__update_thread_tgid`. -/
def updateThreadTgid (lookup : Lookup τ) (machine : State τ) (th : Ref Thread) (tgid : Pid) :
    Except Fault (State τ) := do
  let thread ← deref machine.store.threads th
  if tgid = thread.tgid then return machine
  else
    let machine := machine.modifyThread th fun thread => { thread with tgid := tgid }
    if tgid = thread.tid then return machine
    else do
      let (found, machine) ← lookup machine tgid tgid
      match found with
      | none => return machine
      | some leader => do
          let store ← updateThreadMaps machine.store th leader
          return { machine with store := store }

theorem extends_updateThreadTgid (extend : LookupExtends lookup lookup') (machine : State τ)
    (th : Ref Thread) (tgid : Pid) :
    Extends (DwBpf.updateThreadTgid lookup machine th tgid)
      (updateThreadTgid lookup' machine th tgid) := by
  apply (extends_refl _).bind
  intro thread
  refine extends_ite (extends_refl _) (extends_ite (extends_refl _) ?_)
  apply (extend _ tgid tgid).bind
  rintro ⟨found, middle⟩
  cases found with
  | none => exact extends_error _ _
  | some leader =>
      apply (extends_updateThreadMaps th leader).bind
      intro next
      exact extends_refl _

/-- The part of `thread__init_maps` behind the lookup of the leader. -/
def shareMaps (store : Store) (th leader : Ref Thread) : Except Fault Store := do
  let found ← deref store.threads leader
  let store ← Maps.get store found.maps
  threadPut (store.modifyThread th fun thread => { thread with maps := found.maps }) leader

/-- The branches of `thread__init_maps`. -/
def leaderMaps (lookup : Lookup τ) (machine : State τ) (th : Ref Thread) (tgid tid : Pid) :
    Except Fault (State τ) :=
  if tgid = tid then .ok { machine with store := machine.store.newMaps th }
  else do
    let (found, machine) ← lookup machine tgid tgid
    match found with
    | none => return machine
    | some leader => do
        let store ← shareMaps machine.store th leader
        return { machine with store := store }

/-- `thread__init_maps`. -/
def initMaps (lookup : Lookup τ) (machine : State τ) (th : Ref Thread) :
    Except Fault (Bool × State τ) := do
  let thread ← deref machine.store.threads th
  let machine ← leaderMaps lookup machine th thread.tgid thread.tid
  let thread ← deref machine.store.threads th
  return (thread.maps.isSome, machine)

theorem extends_initMaps (extend : LookupExtends lookup lookup') (machine : State τ)
    (th : Ref Thread) :
    Extends (Thread.initMaps lookup machine th) (initMaps lookup' machine th) := by
  apply (extends_refl _).bind
  intro thread
  refine Extends.bind ?_ fun _ => extends_refl _
  refine extends_ite (extends_refl _) ?_
  apply (extend machine thread.tgid thread.tgid).bind
  rintro ⟨found, middle⟩
  cases found with
  | none => exact extends_refl _
  | some leader =>
      refine Extends.bind ?_ fun _ => extends_refl _
      apply (extends_refl _).bind
      intro object
      apply (extends_refl _).bind
      intro shared
      exact extends_threadPut leader

/-- What a lookup does with a thread it has found. -/
def matched (lookup : Lookup τ) (machine : State τ) (th : Ref Thread) (tgid : Pid) :
    Except Fault (Option (Ref Thread) × State τ) := do
  let machine ← updateThreadTgid lookup machine th tgid
  let store ← Thread.get machine.store th
  return (some th, { machine with store := store })

theorem extends_matched (extend : LookupExtends lookup lookup') (machine : State τ)
    (th : Ref Thread) (tgid : Pid) :
    Extends (DwBpf.matched lookup machine th tgid) (matched lookup' machine th tgid) := by
  apply (extends_updateThreadTgid extend machine th tgid).bind
  intro updated
  exact extends_refl _

end Lookup

section Table

variable {lookup lookup' : Lookup (Fin threadsTableSize → Threads)}

/-- The descent and the creation of `____machine__findnew_thread`. -/
def descend (lookup : Lookup (Fin threadsTableSize → Threads)) (machine : Machine)
    (index : Fin threadsTableSize) (tgid tid : Pid) (create : Bool) :
    Except Fault (Option (Ref Thread) × Machine) :=
  match (machine.table index).entries.locate (Machine.steer machine.store tid) [] with
  | .inl th => do
      let _ ← deref machine.store.threads th
      matched lookup
        (machine.modifyBucket index fun threads => { threads with lastMatch := some th }) th tgid
  | .inr path =>
      if create then do
        let th := machine.store.threads.nextRef
        let machine : Machine := ⟨machine.store.newThread tgid tid, machine.table⟩
        let (ready, machine) ← initMaps lookup
          (machine.modifyBucket index fun threads =>
            { threads with entries := Tree.link path th }) th
        if ready then do
          let store ← Thread.get machine.store th
          let machine : Machine := ⟨store, machine.table⟩
          return (some th, machine.modifyBucket index fun threads =>
            { threads with lastMatch := some th, nr := threads.nr + 1 })
        else do
          let machine := Machine.modifyBucket machine index fun threads =>
            { threads with entries := Tree.ofList (threads.entries.toList.erase th) }
          let store ← threadPut
            (machine.store.modifyThread th fun thread => { thread with node := .clear }) th
          return (none, { machine with store := store })
      else return (none, machine)

/-- The descent in a bucket, with the thread that it enters. -/
theorem extends_descend (extend : LookupExtends lookup lookup') (machine : Machine)
    (index : Fin threadsTableSize) (tgid tid : Pid) (create : Bool) :
    Extends (Machine.descend lookup machine index tgid tid create)
      (descend lookup' machine index tgid tid create) := by
  unfold Machine.descend descend
  cases (machine.table index).entries.locate (Machine.steer machine.store tid) [] with
  | inl th =>
      apply (extends_refl _).bind
      intro thread
      exact extends_matched extend _ th tgid
  | inr path =>
      refine extends_ite ?_ (extends_refl _)
      apply (extends_initMaps extend _ _).bind
      rintro ⟨ready, middle⟩
      refine extends_ite (extends_refl _) ?_
      apply (extends_threadPut _).bind
      intro dropped
      exact extends_refl _

/-- `____machine__findnew_thread` on the bucket `index`. -/
def findnewThreadIn (lookup : Lookup (Fin threadsTableSize → Threads)) (machine : Machine)
    (index : Fin threadsTableSize) (tgid tid : Pid) (create : Bool) :
    Except Fault (Option (Ref Thread) × Machine) :=
  match (machine.table index).lastMatch with
  | some th => do
      let thread ← deref machine.store.threads th
      if thread.tid = tid then matched lookup machine th tgid
      else
        let machine := machine.modifyBucket index fun threads => { threads with lastMatch := none }
        descend lookup machine index tgid tid create
  | none => descend lookup machine index tgid tid create

theorem extends_findnewThreadIn (extend : LookupExtends lookup lookup') (machine : Machine)
    (index : Fin threadsTableSize) (tgid tid : Pid) (create : Bool) :
    Extends (Machine.findnewThreadIn lookup machine index tgid tid create)
      (findnewThreadIn lookup' machine index tgid tid create) := by
  unfold Machine.findnewThreadIn findnewThreadIn
  cases (machine.table index).lastMatch with
  | none => exact extends_descend extend machine index tgid tid create
  | some th =>
      apply (extends_refl _).bind
      intro thread
      exact extends_ite (extends_matched extend machine th tgid)
        (extends_descend extend _ index tgid tid create)

/-- `__machine__findnew_thread`, with a bound on the depth of its recursion. -/
def findnewThreadWithin : Nat → Lookup (Fin threadsTableSize → Threads)
  | 0, _, _, _ => .error .tooDeep
  | depth + 1, machine, tgid, tid =>
      findnewThreadIn (findnewThreadWithin depth) machine (Machine.bucket tid) tgid tid true

/-- `machine__findnew_thread`. -/
def findnewThread : Lookup (Fin threadsTableSize → Threads) := findnewThreadWithin 2

theorem extends_findnewThreadWithin (depth : Nat) :
    LookupExtends (Machine.findnewThreadWithin depth) (findnewThreadWithin depth) := by
  induction depth with
  | zero => exact fun _ _ _ => extends_error _ _
  | succ depth ih =>
      intro machine tgid tid
      exact extends_findnewThreadIn ih machine (Machine.bucket tid) tgid tid true

theorem extends_findnewThread : LookupExtends Machine.findnewThread findnewThread :=
  extends_findnewThreadWithin 2

end Table

end Ndebug

end DwBpf
