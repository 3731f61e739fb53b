import DwBpf.Machine.Simulation
import DwBpf.Machine.Teardown

/-! # The ledger of a machine that is being deleted

The counters of a machine's objects and the recorded events are a ledger of
references, in which a map holds a reference to its dso. Whatever state a machine is
in, each function of its deletion that returns takes steps of that ledger only.
-/

namespace DwBpf

namespace Store

/-- The counter of an object that exists. -/
def count? (store : Store) : Object → Option U32
  | .thread ref => (store.threads.get? ref).map Thread.refcnt
  | .maps ref => (store.maps.get? ref).map Maps.refcnt
  | .map ref => (store.mapObjs.get? ref).map Map.refcnt
  | .dso ref => (store.dsos.get? ref).map Dso.refcnt

/-- The references that maps hold. -/
def held (store : Store) : Object → Nat
  | .dso ref => store.mapObjs.count fun map => map.dso = ref
  | _ => 0

section Count

variable {store : Store}

theorem map_get?_modify {α β : Type} {heap : Heap α} {ref : Ref α} {value : α}
    (live : heap.get? ref = some value) (change : α → α) (field : α → β) (other : Ref α) :
    ((heap.modify ref change).get? other).map field =
      if other = ref then some (field (change value)) else (heap.get? other).map field := by
  rw [Heap.get?_modify]
  split
  · rw [live]
    rfl
  · rfl

theorem map_get?_modify_same {α β : Type} (heap : Heap α) (ref : Ref α) {change : α → α}
    {field : α → β} (same : ∀ value, field (change value) = field value) (other : Ref α) :
    ((heap.modify ref change).get? other).map field = (heap.get? other).map field := by
  rw [Heap.get?_modify]
  split
  · rename_i isRef
    rw [Option.map_map, isRef]
    exact congrArg (Option.map · _) (funext same)
  · rfl

theorem map_get?_free {α β : Type} (heap : Heap α) (ref : Ref α) (field : α → β) (other : Ref α) :
    ((heap.free ref).get? other).map field =
      if other = ref then none else (heap.get? other).map field := by
  rw [Heap.get?_free]
  split
  · rfl
  · rfl

theorem count?_modifyThread {ref : Ref Thread} {thread : Thread}
    (live : store.threads.get? ref = some thread) (change : Thread → Thread) :
    (store.modifyThread ref change).count? =
      Function.update store.count? (.thread ref) (some (change thread).refcnt) := by
  funext object
  cases object with
  | thread other =>
      simp only [count?, modifyThread_threads, map_get?_modify live, Function.update_apply,
        Object.thread.injEq]
  | maps other | map other | dso other => rfl

theorem count?_modifyMaps {ref : Ref Maps} {maps : Maps} (live : store.maps.get? ref = some maps)
    (change : Maps → Maps) :
    (store.modifyMaps ref change).count? =
      Function.update store.count? (.maps ref) (some (change maps).refcnt) := by
  funext object
  cases object with
  | maps other =>
      simp only [count?, modifyMaps_maps, map_get?_modify live, Function.update_apply,
        Object.maps.injEq]
  | thread other | map other | dso other => rfl

theorem count?_modifyMap {ref : Ref Map} {map : Map} (live : store.mapObjs.get? ref = some map)
    (change : Map → Map) :
    (store.modifyMap ref change).count? =
      Function.update store.count? (.map ref) (some (change map).refcnt) := by
  funext object
  cases object with
  | map other =>
      simp only [count?, modifyMap_mapObjs, map_get?_modify live, Function.update_apply,
        Object.map.injEq]
  | thread other | maps other | dso other => rfl

theorem count?_modifyDso {ref : Ref Dso} {dso : Dso} (live : store.dsos.get? ref = some dso)
    (change : Dso → Dso) :
    (store.modifyDso ref change).count? =
      Function.update store.count? (.dso ref) (some (change dso).refcnt) := by
  funext object
  cases object with
  | dso other =>
      simp only [count?, modifyDso_dsos, map_get?_modify live, Function.update_apply,
        Object.dso.injEq]
  | thread other | maps other | map other => rfl

theorem count?_freeThread (ref : Ref Thread) :
    ({ store with threads := store.threads.free ref } : Store).count? =
      Function.update store.count? (.thread ref) none := by
  funext object
  cases object with
  | thread other =>
      simp only [count?, map_get?_free, Function.update_apply, Object.thread.injEq]
  | maps other | map other | dso other => rfl

theorem count?_freeMaps (ref : Ref Maps) :
    ({ store with maps := store.maps.free ref } : Store).count? =
      Function.update store.count? (.maps ref) none := by
  funext object
  cases object with
  | maps other =>
      simp only [count?, map_get?_free, Function.update_apply, Object.maps.injEq]
  | thread other | map other | dso other => rfl

theorem count?_freeMap (ref : Ref Map) :
    ({ store with mapObjs := store.mapObjs.free ref } : Store).count? =
      Function.update store.count? (.map ref) none := by
  funext object
  cases object with
  | map other =>
      simp only [count?, map_get?_free, Function.update_apply, Object.map.injEq]
  | thread other | maps other | dso other => rfl

theorem count?_modifyThread_same (ref : Ref Thread) {change : Thread → Thread}
    (same : ∀ thread, (change thread).refcnt = thread.refcnt) :
    (store.modifyThread ref change).count? = store.count? := by
  funext object
  cases object with
  | thread other => exact map_get?_modify_same store.threads ref same other
  | maps other | map other | dso other => rfl

theorem count?_modifyMaps_same (ref : Ref Maps) {change : Maps → Maps}
    (same : ∀ maps, (change maps).refcnt = maps.refcnt) :
    (store.modifyMaps ref change).count? = store.count? := by
  funext object
  cases object with
  | maps other => exact map_get?_modify_same store.maps ref same other
  | thread other | map other | dso other => rfl

theorem count?_modifyMap_same (ref : Ref Map) {change : Map → Map}
    (same : ∀ map, (change map).refcnt = map.refcnt) :
    (store.modifyMap ref change).count? = store.count? := by
  funext object
  cases object with
  | map other => exact map_get?_modify_same store.mapObjs ref same other
  | thread other | maps other | dso other => rfl

/-- A map keeps its dso. -/
theorem held_modifyMap (ref : Ref Map) {change : Map → Map}
    (same : ∀ map, (change map).dso = map.dso) :
      (store.modifyMap ref change).held = store.held := by
  funext object
  cases object with
  | dso other =>
      exact Heap.count_modify_of_iff fun map _ => by rw [same]
  | thread other | maps other | map other => rfl

/-- A map that is freed gives up the reference to its dso. -/
theorem held_freeMap {ref : Ref Map} {map : Map} (live : store.mapObjs.get? ref = some map) :
    ({ store with mapObjs := store.mapObjs.free ref } : Store).held =
      Function.update store.held (.dso map.dso) (store.held (.dso map.dso) - 1) := by
  funext object
  cases object with
  | dso other =>
      have count : (store.mapObjs.free ref).count (fun map => map.dso = other) +
          (if map.dso = other then 1 else 0) = store.mapObjs.count fun map => map.dso = other :=
        Heap.count_free live
      change (store.mapObjs.free ref).count (fun map => map.dso = other) = _
      rw [Function.update_apply]
      by_cases same : map.dso = other
      · subst same
        rw [if_pos rfl] at count ⊢
        change _ = store.mapObjs.count (fun other => other.dso = map.dso) - 1
        omega
      · rw [if_neg same] at count
        rw [if_neg fun isDso => same (Object.dso.inj isDso).symm]
        exact count
  | thread other | maps other | map other => rfl

theorem count?_listDel (ref : Ref Map) (listed : Option Nat) :
    (Map.listDel store ref listed).count? = store.count? := by
  cases listed with
  | none => exact count?_modifyMap_same ref fun _ => rfl
  | some owner =>
      refine (count?_modifyMap_same ref fun _ => ?_).trans
        (count?_modifyMaps_same ⟨owner⟩ fun _ => ?_)
      · rfl
      · rfl

theorem held_listDel (ref : Ref Map) (listed : Option Nat) :
    (Map.listDel store ref listed).held = store.held := by
  cases listed with
  | none => exact held_modifyMap ref fun _ => rfl
  | some owner => exact held_modifyMap ref fun _ => rfl

end Count

end Store

namespace Teardown

/-- The ledger of the references. -/
def ledger (state : Teardown) : RefLedger Object 32 :=
  ⟨state.store.count?, state.store.held, state.events⟩

/-- The ledger takes steps. -/
def Evolves (state next : Teardown) : Prop :=
  Relation.ReflTransGen RefLedger.Step state.ledger next.ledger

variable {state next : Teardown}

theorem Evolves.of_same (same : next.ledger = state.ledger) : state.Evolves next := by
  unfold Evolves
  rw [same]

theorem Evolves.trans {last : Teardown} (first : state.Evolves next) (second : next.Evolves last) :
    state.Evolves last :=
  Relation.ReflTransGen.trans first second

/-- The ledger after a put. -/
theorem ledger_put {object : Object} {count : U32} {store : Store}
    (counter : store.count? = Function.update state.store.count? object (some (count - 1)))
    (held : store.held = state.store.held) :
    ((state.withStore store).log (.put object count)).ledger =
      state.ledger.afterPut object count := by
  unfold ledger RefLedger.afterPut
  rw [RefLedger.mk.injEq]
  exact ⟨counter, held, rfl⟩

/-- The ledger after a destruction. -/
theorem ledger_free {object : Object} {store : Store}
    (counter : store.count? = Function.update state.store.count? object none)
    (held : store.held = state.store.held) :
    ((state.withStore store).log (.free object)).ledger = state.ledger.afterFree object := by
  unfold ledger RefLedger.afterFree
  rw [RefLedger.mk.injEq]
  exact ⟨counter, held, rfl⟩

theorem evolves_put {object : Object} {count : U32} {store : Store}
    (live : state.store.count? object = some count)
    (counter : store.count? = Function.update state.store.count? object (some (count - 1)))
    (held : store.held = state.store.held) :
    state.Evolves ((state.withStore store).log (.put object count)) := by
  unfold Evolves
  rw [ledger_put counter held]
  exact .single (.put live)

theorem evolves_free {object : Object} {count : U32} {store : Store}
    (last : state.store.count? object = some 0) (wasPut : .put object count ∈ state.events)
    (counter : store.count? = Function.update state.store.count? object none)
    (held : store.held = state.store.held) :
    state.Evolves ((state.withStore store).log (.free object)) := by
  unfold Evolves
  rw [ledger_free counter held]
  exact .single (.free last wasPut)

theorem ledger_dsoPut {ref : Ref Dso} (ran : dsoPut state ref = .ok next) :
    ∃ dso, state.store.dsos.get? ref = some dso ∧
      next.ledger = state.ledger.afterPut (.dso ref) dso.refcnt ∧
      next.store.mapObjs = state.store.mapObjs ∧ next.store.maps = state.store.maps ∧
      next.store.threads = state.store.threads := by
  obtain ⟨dso, isLive, done⟩ := bind_eq_ok_iff.mp ran
  have live := deref_eq_ok_iff.mp isLive
  cases done
  exact ⟨dso, live, ledger_put (Store.count?_modifyDso live _) rfl, rfl, rfl, rfl⟩

theorem count?_of_dso {ref : Ref Dso} {dso : Dso} (live : state.store.dsos.get? ref = some dso) :
    state.ledger.count? (.dso ref) = some dso.refcnt := by
  change (state.store.dsos.get? ref).map Dso.refcnt = _
  rw [live]
  rfl

theorem dsoPut_evolves {ref : Ref Dso} (ran : dsoPut state ref = .ok next) :
    state.Evolves next := by
  obtain ⟨dso, live, same, -⟩ := ledger_dsoPut ran
  unfold Evolves
  rw [same]
  exact .single (.put (count?_of_dso live))

/-- Steps that leave the threads and the counters of maps objects alone. -/
structure Purges (state next : Teardown) : Prop where
  evolves : state.Evolves next
  threads : next.store.threads = state.store.threads
  maps : ∀ ref, (next.store.maps.get? ref).map Maps.refcnt =
    (state.store.maps.get? ref).map Maps.refcnt

theorem Purges.trans {last : Teardown} (first : state.Purges next) (second : next.Purges last) :
    state.Purges last where
  evolves := first.evolves.trans second.evolves
  threads := second.threads.trans first.threads
  maps := fun ref => (second.maps ref).trans (first.maps ref)

/-- A map that has no references left is destroyed and puts its dso. -/
theorem mapDelete_purges {ref : Ref Map} {map : Map} {count : U32}
    (live : state.store.mapObjs.get? ref = some map) (last : map.refcnt = 0)
    (wasPut : .put (.map ref) count ∈ state.events) (ran : mapDelete state ref = .ok next) :
    state.Purges next := by
  obtain ⟨object, isLive, rest⟩ := bind_eq_ok_iff.mp ran
  cases live.symm.trans (deref_eq_ok_iff.mp isLive)
  split at rest
  · cases rest
  · obtain ⟨middle, put, done⟩ := bind_eq_ok_iff.mp rest
    obtain ⟨dso, dsoLive, same, mapObjs, maps, threads⟩ := ledger_dsoPut put
    cases done
    have counted : state.ledger.count? (.map ref) = some 0 := by
      change (state.store.mapObjs.get? ref).map Map.refcnt = _
      rw [live, ← last]
      rfl
    have middleLive : middle.store.mapObjs.get? ref = some map := by rw [mapObjs, live]
    have counter : middle.store.count? = _ := congrArg RefLedger.count? same
    have held : middle.store.held = state.store.held := congrArg RefLedger.held same
    have events : middle.events = _ := congrArg RefLedger.events same
    have dropped : ((middle.withStore { middle.store with
        mapObjs := middle.store.mapObjs.free ref }).log (.free (.map ref))).ledger =
        { (state.ledger.afterPut (.dso map.dso) dso.refcnt).afterFree (.map ref) with
          held := Function.update state.ledger.held (.dso map.dso)
            (state.ledger.held (.dso map.dso) - 1) } := by
      unfold ledger
      rw [RefLedger.mk.injEq]
      refine ⟨?_, ?_, ?_⟩
      · exact (Store.count?_freeMap ref).trans (by rw [counter]; rfl)
      · exact (Store.held_freeMap middleLive).trans (by rw [held])
      · change middle.events ++ _ = _
        rw [events]
        rfl
    refine ⟨?_, threads, fun ref => congrArg (fun heap => (heap.get? ref).map Maps.refcnt) maps⟩
    unfold Evolves
    rw [dropped]
    exact .single (.drop counted wasPut (count?_of_dso dsoLive) nofun)

theorem mapPut_purges {ref : Ref Map} (ran : mapPut state ref = .ok next) : state.Purges next := by
  obtain ⟨map, isLive, rest⟩ := bind_eq_ok_iff.mp ran
  have live := deref_eq_ok_iff.mp isLive
  have counted : state.store.count? (.map ref) = some map.refcnt := congrArg (Option.map _) live
  have put : state.Purges ((state.withStore (state.store.modifyMap ref fun map =>
      { map with refcnt := map.refcnt - 1 })).log (.put (.map ref) map.refcnt)) := by
    refine ⟨evolves_put counted (Store.count?_modifyMap live _) (Store.held_modifyMap ref ?_), rfl,
      fun _ => rfl⟩
    exact fun _ => rfl
  dsimp only at rest
  split at rest
  · rename_i last
    have unlisted : (Map.listDel (state.store.modifyMap ref fun map =>
        { map with refcnt := map.refcnt - 1 }) ref map.listed).mapObjs.get? ref =
        some { map with refcnt := map.refcnt - 1, listed := none } := by
      cases map.listed <;> simp [Map.listDel, live]
    refine put.trans (.trans ⟨.of_same ?_, Map.threads_listDel map.listed, ?_⟩
      (mapDelete_purges unlisted last (List.mem_append_right _ (List.mem_singleton_self _)) rest))
    · unfold ledger
      rw [RefLedger.mk.injEq]
      exact ⟨Store.count?_listDel ref map.listed, Store.held_listDel ref map.listed, rfl⟩
    · intro maps
      exact congrFun (Store.count?_listDel ref map.listed) (.maps maps)
  · cases rest
    exact put

/-- The induction is on the maps left in the tree. -/
theorem mapsPurge_purges {ref : Ref Maps} {entries : List (Ref Map)}
    (ran : mapsPurge ref entries state = .ok next) : state.Purges next := by
  induction entries generalizing state with
  | nil =>
      cases ran
      exact ⟨.of_same rfl, rfl, fun _ => rfl⟩
  | cons pos rest ih =>
      obtain ⟨middle, put, later⟩ := bind_eq_ok_iff.mp ran
      have arranged : state.Purges (state.withStore ((state.store.modifyMaps ref fun maps =>
          { maps with entries := Tree.ofList rest }).modifyMap pos fun map =>
            { map with linked := false })) := by
        refine ⟨.of_same ?_, rfl, ?_⟩
        · unfold ledger
          rw [RefLedger.mk.injEq]
          refine ⟨(Store.count?_modifyMap_same pos ?_).trans (Store.count?_modifyMaps_same ref ?_),
            (Store.held_modifyMap pos ?_).trans rfl, rfl⟩
          · exact fun _ => rfl
          · exact fun _ => rfl
          · exact fun _ => rfl
        · intro other
          refine Store.map_get?_modify_same _ _ ?_ other
          exact fun _ => rfl
      exact arranged.trans ((mapPut_purges put).trans (ih later))

/-- A maps object that has no references left is destroyed. -/
theorem mapsDelete_evolves {ref : Ref Maps} {maps : Maps} {count : U32}
    (live : state.store.maps.get? ref = some maps) (last : maps.refcnt = 0)
    (wasPut : .put (.maps ref) count ∈ state.events) (ran : mapsDelete state ref = .ok next) :
    state.Evolves next ∧ next.store.threads = state.store.threads := by
  obtain ⟨object, -, rest⟩ := bind_eq_ok_iff.mp ran
  obtain ⟨middle, purge, done⟩ := bind_eq_ok_iff.mp rest
  have purged := mapsPurge_purges purge
  have counted : middle.store.count? (.maps ref) = some 0 := by
    rw [← last]
    exact (purged.maps ref).trans (congrArg (Option.map _) live)
  cases done
  have stillPut := RefLedger.steps_grow purged.evolves wasPut
  exact ⟨purged.evolves.trans (evolves_free counted stillPut (Store.count?_freeMaps ref) rfl),
    purged.threads⟩

/-- The put of a maps object logs what it releases, and touches no thread. -/
theorem mapsPut_evolves {maps : Option (Ref Maps)} (ran : mapsPut state maps = .ok next) :
    state.Evolves next ∧ next.store.threads = state.store.threads := by
  cases maps with
  | none =>
      cases ran
      exact ⟨.of_same rfl, rfl⟩
  | some ref =>
      obtain ⟨object, isLive, rest⟩ := bind_eq_ok_iff.mp ran
      have live := deref_eq_ok_iff.mp isLive
      have counted : state.store.count? (.maps ref) = some object.refcnt :=
        congrArg (Option.map _) live
      have put : state.Evolves ((state.withStore (state.store.modifyMaps ref fun maps =>
          { maps with refcnt := maps.refcnt - 1 })).log (.put (.maps ref) object.refcnt)) :=
        evolves_put counted (Store.count?_modifyMaps live _) rfl
      dsimp only at rest
      split at rest
      · rename_i last
        have dying : (state.store.modifyMaps ref fun maps =>
            { maps with refcnt := maps.refcnt - 1 }).maps.get? ref =
            some { object with refcnt := object.refcnt - 1 } := by
          simp [live]
        obtain ⟨evolves, threads⟩ := mapsDelete_evolves dying last
          (List.mem_append_right _ (List.mem_singleton_self _)) rest
        exact ⟨put.trans evolves, threads⟩
      · cases rest
        exact ⟨put, rfl⟩

/-- A thread that has no references left is destroyed. -/
theorem threadDelete_evolves {ref : Ref Thread} {thread : Thread} {count : U32}
    (live : state.store.threads.get? ref = some thread) (last : thread.refcnt = 0)
    (wasPut : .put (.thread ref) count ∈ state.events) (ran : threadDelete state ref = .ok next) :
    state.Evolves next := by
  obtain ⟨object, -, rest⟩ := bind_eq_ok_iff.mp ran
  split at rest
  · cases rest
  · obtain ⟨middle, put, done⟩ := bind_eq_ok_iff.mp rest
    obtain ⟨evolves, threads⟩ := mapsPut_evolves put
    have counted : middle.store.count? (.thread ref) = some 0 := by
      rw [← last]
      change (middle.store.threads.get? ref).map Thread.refcnt = _
      rw [threads, live]
      rfl
    cases done
    have stillPut := RefLedger.steps_grow evolves wasPut
    exact evolves.trans (evolves_free counted stillPut (Store.count?_freeThread ref) rfl)

theorem threadPut_evolves {ref : Ref Thread} (ran : threadPut state ref = .ok next) :
    state.Evolves next := by
  obtain ⟨thread, isLive, rest⟩ := bind_eq_ok_iff.mp ran
  have live := deref_eq_ok_iff.mp isLive
  have counted : state.store.count? (.thread ref) = some thread.refcnt :=
    congrArg (Option.map _) live
  have put : state.Evolves ((state.withStore (state.store.modifyThread ref fun thread =>
      { thread with refcnt := thread.refcnt - 1 })).log (.put (.thread ref) thread.refcnt)) :=
    evolves_put counted (Store.count?_modifyThread live _) rfl
  dsimp only at rest
  split at rest
  · rename_i last
    split at rest
    · rename_i bucket _
      have dying : ((state.store.modifyThread ref fun thread =>
          { thread with refcnt := thread.refcnt - 1 }).modifyThread ref fun thread =>
            { thread with node := .clear }).threads.get? ref =
          some { thread with refcnt := thread.refcnt - 1, node := .clear } := by
        simp [live]
      refine put.trans (.trans (.of_same ?_) (threadDelete_evolves dying last
        (List.mem_append_right _ (List.mem_singleton_self _)) rest))
      unfold ledger
      rw [RefLedger.mk.injEq]
      refine ⟨?_, rfl, rfl⟩
      exact Store.count?_modifyThread_same ref fun _ => rfl
    · cases rest
  · cases rest
    exact put

theorem removeThread_evolves {rb : RbErase} {th : Ref Thread}
    (ran : removeThread rb state th = .ok next) : state.Evolves next := by
  obtain ⟨thread, -, rest⟩ := bind_eq_ok_iff.mp ran
  split at rest
  · cases rest
  · refine .trans (.of_same ?_) (threadPut_evolves rest)
    unfold ledger
    rw [RefLedger.mk.injEq]
    refine ⟨(Store.count?_modifyThread_same th ?_).trans (Store.count?_modifyThread_same th ?_),
      rfl, rfl⟩
    · exact fun _ => rfl
    · exact fun _ => rfl

theorem deleteEntries_evolves {rb : RbErase} {entries : List (Ref Thread)}
    (ran : deleteEntries rb entries state = .ok next) : state.Evolves next := by
  induction entries generalizing state with
  | nil =>
      cases ran
      exact .of_same rfl
  | cons th rest ih =>
      obtain ⟨middle, remove, later⟩ := bind_eq_ok_iff.mp ran
      exact (removeThread_evolves remove).trans (ih later)

theorem deleteThreads_evolves {rb : RbErase} {buckets : List (Fin threadsTableSize)}
    (ran : deleteThreads rb buckets state = .ok next) : state.Evolves next := by
  induction buckets generalizing state with
  | nil =>
      cases ran
      exact .of_same rfl
  | cons index rest ih =>
      obtain ⟨middle, delete, later⟩ := bind_eq_ok_iff.mp ran
      exact (deleteEntries_evolves delete).trans (ih later)

theorem dsosPurge_evolves {dsos : List (Ref Dso)} (ran : dsosPurge dsos state = .ok next) :
    state.Evolves next := by
  induction dsos generalizing state with
  | nil =>
      cases ran
      exact .of_same rfl
  | cons pos rest ih =>
      obtain ⟨middle, put, later⟩ := bind_eq_ok_iff.mp ran
      refine .trans (.of_same ?_) ((dsoPut_evolves put).trans (ih later))
      rfl

/-- The ledger of a machine that was deleted comes from that of the machine before. -/
theorem machineDelete_run {rb : RbErase} {machine : Machine} {links : Links DeadNode}
    (ran : machineDelete rb (start machine links) = .ok next) :
    RefLedger.Run (start machine links).ledger next.ledger := by
  obtain ⟨middle, delete, purge⟩ := bind_eq_ok_iff.mp ran
  exact ⟨rfl, (deleteThreads_evolves delete).trans (dsosPurge_evolves purge)⟩

end Teardown

end DwBpf
