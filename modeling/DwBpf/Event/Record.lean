import DwBpf.Event.ThreadMap
import DwBpf.Event.Steady

/-! # What recording a map does

`bpf_unwind_ctx__process_mmap` takes and drops references to a dso, a map and a
thread on its way. In the end a dso of the name is there and counted once more
(`DwBpf.Dsos.Found`), and a new map object, counted once, is in the tree and in the
list of the thread's maps (`DwBpf.Recorded`).
-/

namespace DwBpf

/-- The long name behind a reference. -/
def Dso.name (store : Store) (ref : Ref Dso) : List Char :=
  ((store.dsos.get? ref).map Dso.longName).getD []

/-- The tree of dsos is ordered by long names, each of which it has once. -/
structure Store.Interned (store : Store) : Prop where
  live : ∀ ref ∈ store.dsosRoot.toList, ∃ dso, store.dsos.get? ref = some dso
  sorted : store.dsosRoot.toList.Pairwise fun first second =>
    Dso.name store first < Dso.name store second

variable {store next : Store} {name : List Char} {dso : Ref Dso}

theorem Store.Interned.nodup (interned : store.Interned) : store.dsosRoot.toList.Nodup := by
  refine interned.sorted.imp ?_
  intro first second below same
  rw [same] at below
  exact lt_irrefl _ below

theorem strcmp_eq_compare (first second : List Char) :
    strcmp first second = @compare (List Char) LinearOrder.toOrd first second := by
  unfold strcmp cmp cmpUsing
  rcases lt_trichotomy first second with below | same | above
  · rw [if_pos below, compare_lt_iff_lt.mpr below]
  · rw [same, if_neg (lt_irrefl _), if_neg (lt_irrefl _), compare_eq_iff_eq.mpr rfl]
  · rw [if_neg (lt_asymm above), if_pos above, compare_gt_iff_gt.mpr above]

theorem Dso.name_of_live {object : Dso} (live : store.dsos.get? dso = some object) :
    Dso.name store dso = object.longName := by
  simp [Dso.name, live]

/-- A search by name compares long names. -/
theorem Dso.steer_of_live {object : Dso} (live : store.dsos.get? dso = some object)
    (name : List Char) : Dso.steer store none name dso =
      @compare (List Char) LinearOrder.toOrd name (Dso.name store dso) := by
  simp only [Dso.steer, live, Option.bind_none, Dso.name_of_live live, ← strcmp_eq_compare]
  cases strcmp name object.longName <;> rfl

theorem Store.Interned.steered (interned : store.Interned) (name : List Char) :
    Tree.Steered (Dso.steer store none name) store.dsosRoot.toList := by
  have agree : ∀ ref ∈ store.dsosRoot.toList, Dso.steer store none name ref =
      @compare (List Char) LinearOrder.toOrd name (Dso.name store ref) := by
    intro ref member
    obtain ⟨object, live⟩ := interned.live ref member
    exact Dso.steer_of_live live name
  exact Tree.steered_of_sorted agree (interned.sorted.imp le_of_lt)

/-- A search that falls off meets no dso of the name. -/
theorem Store.Interned.name_ne (interned : store.Interned) {path : List (Frame (Ref Dso))}
    (fell : store.dsosRoot.locate (Dso.steer store none name) [] = .inr path) :
    ∀ ref ∈ store.dsosRoot.toList, Dso.name store ref ≠ name := by
  have absent := (Tree.find?_eq_none (interned.steered name)).mp
    (by rw [Tree.find?, fell])
  intro ref member same
  obtain ⟨object, live⟩ := interned.live ref member
  apply absent ref member
  rw [Dso.steer_of_live live, compare_eq_iff_eq, same]

/-- How `dsos__findnew` ends: the dso of the name is there and counted once more. -/
inductive Dsos.Found (store : Store) (name : List Char) : Ref Dso → Store → Prop
  | known {dso : Ref Dso} {object : Dso} (member : dso ∈ store.dsosRoot.toList)
      (live : store.dsos.get? dso = some object) (named : object.longName = name) :
      Found store name dso
        (store.modifyDso dso fun object => { object with refcnt := object.refcnt + 1 })
  | added {path : List (Frame (Ref Dso))}
      (fell : store.dsosRoot.locate (Dso.steer store none name) [] = .inr path) :
      Found store name store.dsos.nextRef
        { store with
          dsos := store.dsos.alloc ⟨name, basename name, 2, .new⟩
          dsosHead := store.dsosHead ++ [store.dsos.nextRef]
          dsosRoot := Tree.link path store.dsos.nextRef }

/-- Linking a dso whose name is new meets no name like it, so its own short name
does not matter. -/
theorem Dso.locate_of_fell (interned : store.Interned) {path : List (Frame (Ref Dso))}
    (fell : store.dsosRoot.locate (Dso.steer store none name) [] = .inr path) (added : Dso)
    (head : List (Ref Dso)) (dso : Option (Ref Dso)) :
    store.dsosRoot.locate (Dso.steer
      { store with dsos := store.dsos.alloc added, dsosHead := head } dso name) [] =
        .inr path := by
  rw [← fell]
  apply Tree.locate_congr
  intro ref member
  obtain ⟨object, live⟩ := interned.live ref member
  have still : (store.dsos.alloc added).get? ref = some object := Heap.get?_alloc_of_some _ live
  have different := interned.name_ne fell ref member
  rw [Dso.name_of_live live] at different
  have unequal : strcmp name object.longName ≠ .eq := by
    rw [strcmp_eq_compare]
    intro same
    exact different (compare_eq_iff_eq.mp same).symm
  simp only [Dso.steer, still, live, Option.bind_none]
  cases order : strcmp name object.longName with
  | eq => exact absurd order unequal
  | lt => rfl
  | gt => rfl

/-- A dso that is not known yet is listed, linked and counted once. -/
theorem Dsos.addnew_of_fell (interned : store.Interned) {path : List (Frame (Ref Dso))}
    (fell : store.dsosRoot.locate (Dso.steer store none name) [] = .inr path) :
    Dsos.addnew store name = .ok (store.dsos.nextRef,
      { store with
        dsos := store.dsos.alloc ⟨name, basename name, 1, .new⟩
        dsosHead := store.dsosHead ++ [store.dsos.nextRef]
        dsosRoot := Tree.link path store.dsos.nextRef }) := by
  have located := Dso.locate_of_fell interned fell (Dso.new name)
    (store.dsosHead ++ [store.dsos.nextRef]) (some store.dsos.nextRef)
  have named : (Dso.new name).longName = name := rfl
  simp only [Dsos.addnew, Dsos.add, Dso.findlinkByLongname, Dso.get, Dso.put, Dso.setBasename,
    deref, Heap.get?_alloc_nextRef, ok_bind, named, located, pure_eq_ok, Store.modifyDso,
    Heap.modify_alloc_nextRef, BitVec.add_sub_cancel]
  rfl

/-- `dsos__findnew` returns the one dso of the name, which it adds if there is none. -/
theorem Dsos.found_of_findnew (interned : store.Interned)
    (ran : Dsos.findnew store name = .ok (dso, next)) : Dsos.Found store name dso next := by
  unfold Dsos.findnew Dsos.find Dso.findlinkByLongname at ran
  cases located : store.dsosRoot.locate (Dso.steer store none name) [] with
  | inl this =>
      obtain ⟨member, answer⟩ := Tree.locate_inl located
      obtain ⟨object, live⟩ := interned.live this member
      rw [Dso.steer_of_live live, compare_eq_iff_eq, Dso.name_of_live live] at answer
      simp only [located, deref_of_get? live, ok_bind, pure_eq_ok, Bool.false_eq_true, ↓reduceIte,
        true_or, Dso.get] at ran
      cases ran
      exact .known member live answer.symm
  | inr path =>
      simp only [located, ok_bind, pure_eq_ok, Bool.false_eq_true, ↓reduceIte,
        Dsos.addnew_of_fell interned located, Dso.get, deref, Heap.get?_alloc_nextRef] at ran
      cases ran
      have result := Dsos.Found.added located
      simp only [Store.modifyDso, Heap.modify_alloc_nextRef]
      exact result

theorem Dsos.Found.live (found : Dsos.Found store name dso next) :
    ∃ object, next.dsos.get? dso = some object ∧ object.longName = name := by
  cases found with
  | @known dso object member live named =>
      refine ⟨{ object with refcnt := object.refcnt + 1 }, ?_, named⟩
      simp [live]
  | added fell => exact ⟨⟨name, basename name, 2, .new⟩, Heap.get?_alloc_nextRef _ _, rfl⟩

/-- The event's map in the maps object `maps`, with its dso. -/
def Map.recorded (event : MmapEvent) (dso : Ref Dso) (maps : Ref Maps) : Map :=
  { Map.init event dso with listed := some maps.addr, linked := true }

/-- The references to the dso taken and dropped on the way cancel out. -/
theorem Map.new_of_found {event : MmapEvent} {map : Ref Map} (interned : store.Interned)
    (ran : Map.new store event = .ok (map, next)) :
    ∃ dso found, Dsos.Found store event.filename dso found ∧ map = found.mapObjs.nextRef ∧
      next = { found with mapObjs := found.mapObjs.alloc (Map.init event dso) } := by
  obtain ⟨⟨dso, found⟩, find, rest⟩ := bind_eq_ok_iff.mp ran
  obtain ⟨held, got, rest⟩ := bind_eq_ok_iff.mp rest
  obtain ⟨middle, put, done⟩ := bind_eq_ok_iff.mp rest
  obtain ⟨_, -, got⟩ := bind_eq_ok_iff.mp got
  obtain ⟨_, -, put⟩ := bind_eq_ok_iff.mp put
  cases got
  cases put
  cases done
  refine ⟨dso, found, Dsos.found_of_findnew interned find, rfl, ?_⟩
  have cancels : (found.dsos.modify dso fun object =>
      { object with refcnt := object.refcnt + 1 }).modify dso
        (fun object => { object with refcnt := object.refcnt - 1 }) = found.dsos := by
    rw [Heap.modify_modify]
    apply Heap.modify_eq_self
    intro object _
    simp
  simp only [Store.modifyDso, cancels]

/-- What recording the map of an event for the thread `th` did: the map is in
`maps`, and the thread's reference is given back. -/
structure Recorded (event : MmapEvent) (store : Store) (th : Ref Thread) (next : Store)
    (dso : Ref Dso) (found : Store) (maps : Ref Maps) (object : Maps)
    (path : List (Frame (Ref Map))) : Prop where
  interned : Dsos.Found store event.filename dso found
  has : ∃ thread, store.threads.get? th = some thread ∧ thread.maps = some maps
  stored : store.maps.get? maps = some object
  fell : object.entries.locate (Maps.steerInsert
    { store with mapObjs := store.mapObjs.alloc (Map.init event dso) } event.start) [] = .inr path
  entered : next.maps = store.maps.modify maps fun object =>
    { object with
      entries := Tree.link path store.mapObjs.nextRef
      head := object.head ++ [store.mapObjs.nextRef] }
  allocated : next.mapObjs = store.mapObjs.alloc (Map.recorded event dso maps)
  dsos : next.dsos = found.dsos
  dsosHead : next.dsosHead = found.dsosHead
  dsosRoot : next.dsosRoot = found.dsosRoot
  dead : next.dead = store.dead
  others : ∀ ref, ref ≠ th → next.threads.get? ref = store.threads.get? ref
  counted : ∀ thread, store.threads.get? th = some thread → ∃ after,
    next.threads.get? th = some after ∧ after.refcnt = thread.refcnt - 1

theorem Dsos.Found.same (found : Dsos.Found store name dso next) :
    next.threads = store.threads ∧ next.maps = store.maps ∧ next.mapObjs = store.mapObjs := by
  cases found with
  | known => exact ⟨rfl, rfl, rfl⟩
  | added => exact ⟨rfl, rfl, rfl⟩

theorem Dsos.Found.dead_eq (found : Dsos.Found store name dso next) : next.dead = store.dead := by
  cases found with
  | known => rfl
  | added => rfl

/-- Preparing a thread leaves its group, its maps and its counter. -/
theorem Thread.prepareAccess_eq {th : Ref Thread} {created prepared : Bool}
    (ran : Thread.prepareAccess store th created = .ok (prepared, next)) :
    ∃ change, (∀ thread, (change thread).core = thread.core ∧
      (change thread).refcnt = thread.refcnt) ∧ next = store.modifyThread th change := by
  obtain ⟨thread, -, rest⟩ := bind_eq_ok_iff.mp ran
  split at rest
  · cases rest
    have same : store.threads.modify th id = store.threads := Heap.modify_eq_self fun _ _ => rfl
    refine ⟨id, fun _ => ⟨rfl, rfl⟩, ?_⟩
    rw [Store.modifyThread, same]
  · cases rest
    exact ⟨fun thread => { thread with ulops := true, addrSpace := created },
      fun _ => ⟨rfl, rfl⟩, rfl⟩

/-- An insertion links the map where the descent falls off, puts it at the end of the list
and takes a reference. -/
theorem Maps.insert_eq {maps : Ref Maps} {map : Ref Map}
    (ran : Maps.insert store maps map = .ok next) :
    ∃ object stored path, store.maps.get? maps = some object ∧
      store.mapObjs.get? map = some stored ∧
      object.entries.locate (Maps.steerInsert store stored.start) [] = .inr path ∧
      next = (store.modifyMaps maps fun object =>
        { object with entries := Tree.link path map, head := object.head ++ [map] }).modifyMap map
          fun stored => { stored with
            listed := some maps.addr, linked := true, refcnt := stored.refcnt + 1 } := by
  obtain ⟨object, live, rest⟩ := bind_eq_ok_iff.mp ran
  obtain ⟨stored, isStored, rest⟩ := bind_eq_ok_iff.mp rest
  split at rest
  · cases rest
  · rename_i path located
    obtain ⟨_, -, done⟩ := bind_eq_ok_iff.mp rest
    cases done
    refine ⟨object, stored, path, deref_eq_ok_iff.mp live, deref_eq_ok_iff.mp isStored, located, ?_⟩
    simp only [Store.modifyMap, Heap.modify_modify]
    rfl

/-- A map counted twice is counted once after it was put. -/
theorem Map.put_of_two {map : Ref Map} {stored : Map} (live : store.mapObjs.get? map = some stored)
    (two : stored.refcnt = 2) :
    Map.put store map = .ok (store.modifyMap map fun stored =>
      { stored with refcnt := stored.refcnt - 1 }) := by
  simp only [Map.put, deref_of_get? live, ok_bind, two, pure_eq_ok]
  rfl

/-- Recording a map for a linked thread that returns. -/
theorem recorded_of_recordMap {event : MmapEvent} {created : Bool} {result : Unit}
    {th : Ref Thread} {thread : Thread} (interned : store.Interned)
    (live : store.threads.get? th = some thread) (linked : thread.node = .tree)
    (ran : recordMap event created store th = .ok (result, next)) :
    ∃ dso found maps object path, Recorded event store th next dso found maps object path := by
  obtain ⟨⟨map, mapped⟩, new, rest⟩ := bind_eq_ok_iff.mp ran
  obtain ⟨⟨inserted, entered⟩, insert, rest⟩ := bind_eq_ok_iff.mp rest
  obtain ⟨dso, found, isFound, rfl, rfl⟩ := Map.new_of_found interned new
  obtain ⟨sameThreads, sameMaps, sameMapObjs⟩ := isFound.same
  obtain ⟨⟨prepared, ready⟩, prepare, insertRest⟩ := bind_eq_ok_iff.mp insert
  obtain ⟨change, keeps, rfl⟩ := Thread.prepareAccess_eq prepare
  dsimp only at insertRest
  split at insertRest
  swap
  · cases insertRest
    cases rest
  obtain ⟨thread', live', insertRest⟩ := bind_eq_ok_iff.mp insertRest
  have prepared : (found.threads.modify th change).get? th = some (change thread) := by
    rw [Heap.get?_modify_self, sameThreads, live, Option.map_some]
  obtain rfl : thread' = change thread :=
    Option.some.inj ((deref_eq_ok_iff.mp live').symm.trans prepared)
  have core := (keeps thread).1
  simp only [Thread.core, Prod.mk.injEq] at core
  split at insertRest
  · cases insertRest
  · rename_i maps has
    obtain ⟨middle, inserts, done⟩ := bind_eq_ok_iff.mp insertRest
    cases done
    obtain ⟨object, stored, path, isStored, isNew, fell, rfl⟩ := Maps.insert_eq inserts
    obtain rfl : stored = Map.init event dso :=
      Option.some.inj (isNew.symm.trans (Heap.get?_alloc_nextRef _ _))
    obtain ⟨released, putThread, rest⟩ := bind_eq_ok_iff.mp rest
    obtain ⟨final, putMap, done⟩ := bind_eq_ok_iff.mp rest
    cases done
    rw [Thread.put_of_linked prepared (core.2.2.2.trans linked)] at putThread
    split at putThread
    · cases putThread
    · cases putThread
      rw [Map.put_of_two (Heap.get?_modify_eq_some.mpr ⟨_, Heap.get?_alloc_nextRef _ _,
        (if_pos rfl).symm⟩) rfl] at putMap
      cases putMap
      refine ⟨dso, found, maps, object, path, isFound, ⟨thread, live, ?_⟩, ?_, ?_, ?_, ?_, rfl, rfl,
        rfl, isFound.dead_eq, ?_, ?_⟩
      · rw [← core.2.2.1, has]
      · rw [← sameMaps]
        exact isStored
      · rw [← sameMapObjs]
        exact fell
      · rw [← sameMaps, ← sameMapObjs]
        rfl
      · simp only [Store.modifyMap, Store.modifyThread, Store.modifyMaps, Heap.modify_alloc_nextRef,
          ← sameMapObjs, Map.recorded, Map.init, BitVec.add_sub_cancel]
      · intro ref other
        simp only [Store.modifyMap, Store.modifyThread, Store.modifyMaps,
          Heap.get?_modify_of_ne _ other, sameThreads]
      · intro _ live'
        cases live.symm.trans live'
        refine ⟨{ change thread with refcnt := (change thread).refcnt - 1 }, ?_, ?_⟩
        · simp only [Store.modifyMap, Store.modifyThread, Store.modifyMaps, Heap.get?_modify_self,
            sameThreads, live, Option.map_some]
        · rw [← (keeps thread).2]

end DwBpf
