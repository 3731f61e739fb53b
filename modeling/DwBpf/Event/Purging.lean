import DwBpf.Event.Accounting
import DwBpf.Machine.Releasing

/-! # Dropping the maps of a thread that is destroyed

As long as no counter has wrapped around, `maps__put` takes a maps object apart without
a fault: its maps are destroyed one after the other, and what is left is in order after
each of them (`DwBpf.Store.Tallied`).
-/

namespace DwBpf

/-- Every map is counted once and is in one maps object, and every dso is in the list and
is counted for that and for each of its maps. -/
structure Store.Tallied (store : Store) : Prop where
  entries : ∀ maps object, store.maps.get? maps = some object → ∀ ref ∈ object.entries.toList,
    ∃ map, store.mapObjs.get? ref = some map ∧ map.listed = some maps.addr
  nodup : ∀ maps object, store.maps.get? maps = some object → object.entries.toList.Nodup
  owned : ∀ ref map, store.mapObjs.get? ref = some map → map.refcnt = 1 ∧
    ∃ maps object, store.maps.get? maps = some object ∧ ref ∈ object.entries.toList
  named : ∀ ref map, store.mapObjs.get? ref = some map →
    ∃ dso, store.dsos.get? map.dso = some dso
  counted : ∀ ref dso, store.dsos.get? ref = some dso →
    dso.refcnt.toNat = 1 + store.mapObjs.count fun map => map.dso = ref
  listed : store.dsosHead.Nodup
  dsos : ∀ ref, ref ∈ store.dsosHead ↔ ∃ dso, store.dsos.get? ref = some dso

/-- The store after the first map of a maps object was destroyed. -/
def Store.purged (store : Store) (ref : Ref Maps) (pos : Ref Map) (rest : List (Ref Map))
    (dso : Ref Dso) : Store :=
  { store with
    maps := store.maps.modify ref fun maps =>
      { maps with entries := Tree.ofList rest, head := maps.head.erase pos }
    mapObjs := store.mapObjs.free pos
    dsos := store.dsos.modify dso fun dso => { dso with refcnt := dso.refcnt - 1 } }

section Purged

variable {store : Store} {ref : Ref Maps} {object : Maps} {pos : Ref Map}
  {rest : List (Ref Map)} {map : Map}

/-- A map is in one maps object only. -/
theorem Store.Tallied.owner_eq (tallied : store.Tallied) {other : Ref Maps} {object' : Maps}
    (stored : store.maps.get? ref = some object) (member : pos ∈ object.entries.toList)
    (stored' : store.maps.get? other = some object') (member' : pos ∈ object'.entries.toList) :
    other = ref := by
  obtain ⟨map, live, isListed⟩ := tallied.entries ref object stored pos member
  obtain ⟨map', live', isListed'⟩ := tallied.entries other object' stored' pos member'
  cases live.symm.trans live'
  exact Ref.ext (Option.some.inj (isListed'.symm.trans isListed))

theorem Store.Tallied.dso_counts (tallied : store.Tallied) {query : Ref Dso} {dso : Dso}
    (live : store.dsos.get? query = some dso) : dso.refcnt ≠ 0 := by
  intro zero
  have count := tallied.counted query dso live
  rw [zero] at count
  change 0 = _ at count
  omega

theorem Store.get?_purged {dso : Ref Dso} {other : Ref Map} {map' : Map} :
    (store.purged ref pos rest dso).mapObjs.get? other = some map' ↔
      other ≠ pos ∧ store.mapObjs.get? other = some map' :=
  Heap.get?_free_eq_some

/-- What the maps objects hold now, they held before, less the map that is destroyed. -/
theorem Store.Tallied.entries_purged (tallied : store.Tallied)
    (stored : store.maps.get? ref = some object) (entries : object.entries.toList = pos :: rest)
    {dso : Ref Dso} {maps : Ref Maps} {before : Maps}
    (wasStored : store.maps.get? maps = some before) :
    ∃ after, (store.purged ref pos rest dso).maps.get? maps = some after ∧
      after.entries.toList.Nodup ∧
      ∀ other, other ∈ after.entries.toList ↔ other ≠ pos ∧ other ∈ before.entries.toList := by
  have nodup : (pos :: rest).Nodup := entries ▸ tallied.nodup ref object stored
  refine ⟨_, Heap.get?_modify_eq_some.mpr ⟨before, wasStored, rfl⟩, ?_⟩
  by_cases same : maps = ref
  · subst same
    cases stored.symm.trans wasStored
    rw [if_pos rfl]
    change (Tree.ofList rest).toList.Nodup ∧ ∀ other, other ∈ (Tree.ofList rest).toList ↔ _
    rw [Tree.toList_ofList, entries]
    refine ⟨nodup.of_cons, ?_⟩
    intro other
    constructor
    · intro member
      refine ⟨?_, List.mem_cons_of_mem _ member⟩
      rintro rfl
      exact (List.nodup_cons.mp nodup).1 member
    · rintro ⟨different, member⟩
      exact (List.mem_cons.mp member).resolve_left different
  · rw [if_neg same]
    refine ⟨tallied.nodup maps before wasStored, ?_⟩
    intro other
    refine ⟨fun member => ⟨?_, member⟩, And.right⟩
    rintro rfl
    have first : other ∈ object.entries.toList := by
      rw [entries]
      exact List.mem_cons_self ..
    exact same (tallied.owner_eq stored first wasStored member)

/-- The same, from a maps object that is left. -/
theorem Store.Tallied.was_purged (tallied : store.Tallied)
    (stored : store.maps.get? ref = some object) (entries : object.entries.toList = pos :: rest)
    {dso : Ref Dso} {maps : Ref Maps} {after : Maps}
    (isAfter : (store.purged ref pos rest dso).maps.get? maps = some after) :
    ∃ before, store.maps.get? maps = some before ∧ after.entries.toList.Nodup ∧
      ∀ other, other ∈ after.entries.toList ↔ other ≠ pos ∧ other ∈ before.entries.toList := by
  obtain ⟨before, wasStored, -⟩ := Heap.get?_modify_eq_some.mp isAfter
  obtain ⟨after', isAfter', rest⟩ := tallied.entries_purged stored entries wasStored
  cases isAfter.symm.trans isAfter'
  exact ⟨before, wasStored, rest⟩

/-- The dso of the map that is destroyed is counted once less. -/
theorem Store.Tallied.counted_purged (tallied : store.Tallied)
    (live : store.mapObjs.get? pos = some map) {query : Ref Dso} {dso : Dso}
    (dsoLive : store.dsos.get? query = some dso) :
    (if query = map.dso then { dso with refcnt := dso.refcnt - 1 } else dso).refcnt.toNat =
      1 + (store.mapObjs.free pos).count fun other => other.dso = query := by
  have count := tallied.counted query dso dsoLive
  have fewer : (store.mapObjs.free pos).count (fun other => other.dso = query) +
      (if map.dso = query then 1 else 0) = store.mapObjs.count fun other => other.dso = query :=
    Heap.count_free live
  by_cases same : query = map.dso
  · subst same
    rw [if_pos rfl] at fewer ⊢
    have nonzero := tallied.dso_counts dsoLive
    change (dso.refcnt - 1).toNat = _
    rw [RefLedger.toNat_sub_one nonzero]
    omega
  · rw [if_neg (Ne.symm same)] at fewer
    rw [if_neg same]
    omega

/-- The counters stay exact when the first entry of a tree of ranges is erased with its
map, and its dso is put. -/
theorem Store.Tallied.purged (tallied : store.Tallied) (stored : store.maps.get? ref = some object)
    (entries : object.entries.toList = pos :: rest) (live : store.mapObjs.get? pos = some map) :
    (store.purged ref pos rest map.dso).Tallied where
  entries := by
    intro maps after isAfter other member
    obtain ⟨before, wasStored, -, held⟩ := tallied.was_purged stored entries isAfter
    obtain ⟨different, wasMember⟩ := (held other).mp member
    obtain ⟨map', live', isListed⟩ := tallied.entries maps before wasStored other wasMember
    exact ⟨map', Store.get?_purged.mpr ⟨different, live'⟩, isListed⟩
  nodup := by
    intro maps after isAfter
    obtain ⟨-, -, isNodup, -⟩ := tallied.was_purged stored entries isAfter
    exact isNodup
  owned := by
    intro other map' isLive
    obtain ⟨different, wasLive⟩ := Store.get?_purged.mp isLive
    obtain ⟨one, maps, before, wasStored, member⟩ := tallied.owned other map' wasLive
    obtain ⟨after, isAfter, -, held⟩ := tallied.entries_purged stored entries wasStored
    exact ⟨one, maps, after, isAfter, (held other).mpr ⟨different, member⟩⟩
  named := by
    intro other map' isLive
    obtain ⟨-, wasLive⟩ := Store.get?_purged.mp isLive
    obtain ⟨dso, dsoLive⟩ := tallied.named other map' wasLive
    exact ⟨_, Heap.get?_modify_eq_some.mpr ⟨dso, dsoLive, rfl⟩⟩
  counted := by
    intro query after isLive
    obtain ⟨dso, dsoLive, rfl⟩ := Heap.get?_modify_eq_some.mp isLive
    exact tallied.counted_purged live dsoLive
  listed := tallied.listed
  dsos := by
    intro query
    rw [show (store.purged ref pos rest map.dso).dsosHead = store.dsosHead from rfl, tallied.dsos]
    constructor
    · rintro ⟨dso, dsoLive⟩
      exact ⟨_, Heap.get?_modify_eq_some.mpr ⟨dso, dsoLive, rfl⟩⟩
    · rintro ⟨after, isLive⟩
      obtain ⟨dso, dsoLive, -⟩ := Heap.get?_modify_eq_some.mp isLive
      exact ⟨dso, dsoLive⟩

theorem Store.Tallied.regroups {next : Store} (tallied : store.Tallied)
    (regroups : store.Regroups next) : next.Tallied where
  entries := by
    rw [regroups.mapObjs]
    exact regroups.entries (fun maps refs => ∀ ref ∈ refs, ∃ map,
      store.mapObjs.get? ref = some map ∧ map.listed = some maps.addr) (fun _ _ => nofun)
        tallied.entries
  nodup := regroups.entries (fun _ => List.Nodup) (fun _ => .nil) tallied.nodup
  owned := by
    intro ref map live
    rw [regroups.mapObjs] at live
    obtain ⟨one, isOwned⟩ := tallied.owned ref map live
    exact ⟨one, regroups.owner isOwned⟩
  named := by
    rw [regroups.mapObjs, regroups.dsos]
    exact tallied.named
  counted := by
    rw [regroups.mapObjs, regroups.dsos]
    exact tallied.counted
  listed := by
    rw [regroups.dsosHead]
    exact tallied.listed
  dsos := by
    rw [regroups.dsosHead, regroups.dsos]
    exact tallied.dsos

end Purged

namespace Teardown

/-- The machine with other objects, after more events. -/
def after (state : Teardown) (store : Store) (events : List (RefEvent Object 32)) : Teardown :=
  ⟨{ state.machine with store := store }, state.links, state.events ++ events⟩

variable {state next : Teardown} {ref : Ref Maps} {object : Maps} {pos : Ref Map}
  {rest : List (Ref Map)} {map : Map} {dso : Dso}

theorem after_after (state : Teardown) (first second : Store)
    (events more : List (RefEvent Object 32)) :
    (state.after first events).after second more = state.after second (events ++ more) := by
  unfold after
  rw [List.append_assoc]

theorem withStore_log (state : Teardown) (store : Store) (event : RefEvent Object 32) :
    (state.withStore store).log event = state.after store [event] :=
  rfl

theorem mapDelete_of_unlinked (live : state.store.mapObjs.get? pos = some map)
    (unlinked : map.linked = false) (dsoLive : state.store.dsos.get? map.dso = some dso) :
    mapDelete state pos = .ok (state.after
      { state.store with
        mapObjs := state.store.mapObjs.free pos
        dsos := state.store.dsos.modify map.dso fun dso => { dso with refcnt := dso.refcnt - 1 } }
      [.put (.dso map.dso) dso.refcnt, .free (.map pos)]) := by
  simp only [mapDelete, dsoPut, deref_of_get? live, deref_of_get? dsoLive, ok_bind, unlinked,
    Bool.false_eq_true, ↓reduceIte, pure_eq_ok, withStore_log, after_after, Store.modifyDso]
  rfl

/-- One turn of the loop of `__maps__purge`. -/
theorem mapPut_of_first (rest : List (Ref Map)) (live : state.store.mapObjs.get? pos = some map)
    (isListed : map.listed = some ref.addr) (last : map.refcnt = 1)
    (dsoLive : state.store.dsos.get? map.dso = some dso) :
    mapPut (state.withStore ((state.store.modifyMaps ref fun maps =>
        { maps with entries := Tree.ofList rest }).modifyMap pos fun map =>
          { map with linked := false })) pos =
      .ok (state.after (state.store.purged ref pos rest map.dso)
        [.put (.map pos) 1, .put (.dso map.dso) dso.refcnt, .free (.map pos)]) := by
  let loose := (state.store.modifyMaps ref fun maps =>
    { maps with entries := Tree.ofList rest }).modifyMap pos fun map => { map with linked := false }
  let put := loose.modifyMap pos fun map => { map with refcnt := map.refcnt - 1 }
  have unlinked : loose.mapObjs.get? pos = some { map with linked := false } := by
    simp [loose, live]
  have unlisted : (Map.listDel put pos map.listed).mapObjs.get? pos =
      some { map with linked := false, refcnt := map.refcnt - 1, listed := none } := by
    simp [put, loose, Map.listDel, isListed, live]
  have dsoStays : (Map.listDel put pos map.listed).dsos.get? map.dso = some dso := by
    rw [isListed]
    exact dsoLive
  have dies : mapPut (state.withStore loose) pos =
      mapDelete (state.after (Map.listDel put pos map.listed) [.put (.map pos) 1]) pos := by
    have isLive : deref (state.withStore loose).store.mapObjs pos = _ := deref_of_get? unlinked
    simp only [mapPut, isLive, ok_bind, last]
    rfl
  have left : ({ (Map.listDel put pos map.listed) with
      mapObjs := (Map.listDel put pos map.listed).mapObjs.free pos
      dsos := (Map.listDel put pos map.listed).dsos.modify map.dso fun dso =>
        { dso with refcnt := dso.refcnt - 1 } } : Store) =
          state.store.purged ref pos rest map.dso := by
    rw [isListed]
    simp only [put, loose, Map.listDel, Store.purged, Store.modifyMaps, Store.modifyMap,
      Heap.free_modify, Heap.modify_modify]
    rfl
  change mapPut (state.withStore loose) pos = _
  rw [dies, mapDelete_of_unlinked unlisted rfl dsoStays, after_after, ← left]
  rfl

/-- The threads, their table, the lists of dead threads and the list of dsos are left alone. -/
structure Aside (state next : Teardown) : Prop where
  threads : next.store.threads = state.store.threads
  dsosHead : next.store.dsosHead = state.store.dsosHead
  table : next.machine.table = state.machine.table
  dead : next.store.dead = state.store.dead
  links : next.links = state.links

theorem Aside.trans {last : Teardown} (first : state.Aside next) (second : next.Aside last) :
    state.Aside last where
  threads := second.threads.trans first.threads
  dsosHead := second.dsosHead.trans first.dsosHead
  table := second.table.trans first.table
  dead := second.dead.trans first.dead
  links := second.links.trans first.links

theorem positive_after {store : Store} {events : List (RefEvent Object 32)}
    (positive : state.ledger.Positive)
    (nonzero : ∀ object count, .put object count ∈ events → count ≠ 0) :
    (state.after store events).ledger.Positive := by
  intro object count member
  rcases List.mem_append.mp member with earlier | added
  · exact positive object count earlier
  · exact nonzero object count added

/-- The maps of one maps object were destroyed. -/
structure Emptied (state : Teardown) (ref : Ref Maps) (next : Teardown) : Prop where
  aside : state.Aside next
  tallied : next.store.Tallied
  positive : next.ledger.Positive
  others : ∀ other, other ≠ ref → next.store.maps.get? other = state.store.maps.get? other
  empty : ∃ left, next.store.maps.get? ref = some left ∧ left.entries.toList = []

/-- `__maps__purge` destroys the maps of the tree one after the other. The induction is on
what is left in the tree. -/
theorem mapsPurge_empties {left : List (Ref Map)} (tallied : state.store.Tallied)
    (positive : state.ledger.Positive) (stored : state.store.maps.get? ref = some object)
    (entries : object.entries.toList = left) :
    ∃ next, mapsPurge ref left state = .ok next ∧ state.Emptied ref next := by
  induction left generalizing state object with
  | nil =>
      exact ⟨state, rfl, ⟨rfl, rfl, rfl, rfl, rfl⟩, tallied, positive, fun _ _ => rfl, object,
        stored, entries⟩
  | cons pos rest ih =>
      have first : pos ∈ object.entries.toList := by
        rw [entries]
        exact List.mem_cons_self ..
      obtain ⟨map, live, isListed⟩ := tallied.entries ref object stored pos first
      obtain ⟨one, -⟩ := tallied.owned pos map live
      obtain ⟨dso, dsoLive⟩ := tallied.named pos map live
      have put := mapPut_of_first rest live isListed one dsoLive
      have counts := tallied.dso_counts dsoLive
      have positiveNext : (state.after (state.store.purged ref pos rest map.dso)
          [.put (.map pos) 1, .put (.dso map.dso) dso.refcnt,
            .free (.map pos)]).ledger.Positive := by
        apply positive_after positive
        intro object count member
        simp only [List.mem_cons, RefEvent.put.injEq, reduceCtorEq, List.not_mem_nil,
          or_false] at member
        rcases member with ⟨-, rfl⟩ | ⟨-, rfl⟩
        · decide
        · exact counts
      have storedNext : (state.store.purged ref pos rest map.dso).maps.get? ref =
          some { object with entries := Tree.ofList rest, head := object.head.erase pos } :=
        Heap.get?_modify_eq_some.mpr ⟨object, stored, (if_pos rfl).symm⟩
      obtain ⟨next, purged, emptied⟩ := ih (tallied.purged stored entries live) positiveNext
        storedNext (Tree.toList_ofList rest)
      have aside : state.Aside (state.after (state.store.purged ref pos rest map.dso)
          [.put (.map pos) 1, .put (.dso map.dso) dso.refcnt, .free (.map pos)]) :=
        ⟨rfl, rfl, rfl, rfl, rfl⟩
      refine ⟨next, ?_, ⟨aside.trans emptied.aside, emptied.tallied, emptied.positive, ?_,
        emptied.empty⟩⟩
      · rw [mapsPurge, put, ok_bind]
        exact purged
      · intro other different
        rw [emptied.others other different]
        exact Heap.get?_modify_of_ne _ different

/-- A reference to a maps object was dropped. -/
structure Dropped (state : Teardown) (ref : Ref Maps) (object : Maps) (next : Teardown) : Prop where
  aside : state.Aside next
  tallied : next.store.Tallied
  positive : next.ledger.Positive
  others : ∀ other, other ≠ ref → next.store.maps.get? other = state.store.maps.get? other
  own : (next.store.maps.get? ref).map Maps.refcnt =
    if object.refcnt - 1 = 0 then none else some (object.refcnt - 1)

/-- The put of a maps object counts it down. The last one purges its entries and frees it. -/
theorem mapsPut_drops (tallied : state.store.Tallied) (positive : state.ledger.Positive)
    (stored : state.store.maps.get? ref = some object) (counted : object.refcnt ≠ 0) :
    ∃ next, mapsPut state (some ref) = .ok next ∧ state.Dropped ref object next := by
  let store := state.store.modifyMaps ref fun maps => { maps with refcnt := maps.refcnt - 1 }
  let put := state.after store [.put (.maps ref) object.refcnt]
  have talliedPut : put.store.Tallied := by
    refine tallied.regroups (Store.regroups_modifyMaps ?_)
    exact fun _ => ⟨rfl, rfl⟩
  have positivePut : put.ledger.Positive := by
    apply positive_after positive
    intro object count member
    injection List.mem_singleton.mp member with _ isCount
    rw [isCount]
    exact counted
  have storedPut : put.store.maps.get? ref = some { object with refcnt := object.refcnt - 1 } :=
    Heap.get?_modify_eq_some.mpr ⟨object, stored, (if_pos rfl).symm⟩
  have othersPut : ∀ other, other ≠ ref → put.store.maps.get? other = state.store.maps.get? other :=
    fun other different => Heap.get?_modify_of_ne _ different
  by_cases last : object.refcnt - 1 = 0
  · obtain ⟨middle, purged, emptied⟩ := mapsPurge_empties talliedPut positivePut storedPut rfl
    obtain ⟨left, isLeft, empty⟩ := emptied.empty
    refine ⟨middle.after { middle.store with maps := middle.store.maps.free ref }
      [.free (.maps ref)], ?_, ?_⟩
    · simp only [mapsPut, deref_of_get? stored, ok_bind, last, ↓reduceIte]
      change mapsDelete put ref = _
      rw [mapsDelete, deref_of_get? storedPut, ok_bind, purged]
      rfl
    · obtain ⟨threads, dsosHead, table, dead, isLinks⟩ := emptied.aside
      refine ⟨⟨threads, dsosHead, table, dead, isLinks⟩,
        emptied.tallied.regroups (Store.regroups_freeMaps isLeft empty),
        positive_after emptied.positive (by simp), ?_, ?_⟩
      · intro other different
        refine (Heap.get?_free ..).trans ((if_neg different).trans ?_)
        rw [emptied.others other different, othersPut other different]
      · rw [if_pos last]
        exact congrArg (Option.map _) ((Heap.get?_free ..).trans (if_pos rfl))
  · refine ⟨put, ?_, ⟨⟨rfl, rfl, rfl, rfl, rfl⟩, talliedPut, positivePut, othersPut, ?_⟩⟩
    · simp only [mapsPut, deref_of_get? stored, ok_bind, last, ↓reduceIte]
      rfl
    · rw [storedPut, if_neg last]
      rfl

end Teardown

end DwBpf
