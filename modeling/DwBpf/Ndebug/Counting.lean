import DwBpf.Event.Accounting
import DwBpf.Ndebug.Interface

/-! # Counting maps in both builds

With assertions every reported line adds a map. Without them lookups and puts only ever
destroy maps, and the map of a reported line is destroyed at once, so that the number of
maps does not grow.
-/

namespace DwBpf

/-- The number of maps. -/
def Store.mapCount (store : Store) : Nat := store.mapObjs.count fun _ => True

namespace Ndebug

variable {τ : Type} {store : Store} {property : Heap Map → Prop}

theorem ensures_deref {α : Type} (heap : Heap α) (ref : Ref α) :
    Ensures (fun value => heap.get? ref = some value) (deref heap ref) :=
  fun _ found => deref_eq_ok_iff.mp found

/-- A property of the maps that putting maps keeps. -/
structure Kept (property : Heap Map → Prop) : Prop where
  unlink : ∀ heap pos, property heap →
    property (heap.modify pos fun map => { map with linked := false })
  put : ∀ store ref, property store.mapObjs →
    Ensures (fun next => property next.mapObjs) (mapPut store ref)

section Kept

variable (kept : Kept property)

include kept

theorem ensures_mapsPurge (ref : Ref Maps) (entries : List (Ref Map))
    (holds : property store.mapObjs) :
    Ensures (fun next => property next.mapObjs) (mapsPurge ref entries store) := by
  induction entries generalizing store with
  | nil => exact ensures_ok holds
  | cons pos rest ih =>
      have unlinked := kept.unlink _ pos holds
      refine Ensures.bind (kept.put (Store.modifyMap _ pos _) pos unlinked) ?_
      intro next nextHolds
      exact ih nextHolds

/-- Putting a maps object keeps the property, also with the purge that the last put
brings. -/
theorem ensures_mapsPut (maps : Option (Ref Maps)) (holds : property store.mapObjs) :
    Ensures (fun next => property next.mapObjs) (mapsPut store maps) := by
  cases maps with
  | none => exact ensures_ok holds
  | some ref =>
      refine Ensures.bind (ensures_deref _ _) ?_
      intro object _
      refine ensures_ite ?_ (ensures_ok holds)
      refine Ensures.bind (ensures_deref _ _) ?_
      intro object _
      refine Ensures.bind (ensures_mapsPurge kept ref _ holds) ?_
      intro next nextHolds
      exact ensures_ok nextHolds

theorem ensures_threadPut (ref : Ref Thread) (holds : property store.mapObjs) :
    Ensures (fun next => property next.mapObjs) (threadPut store ref) := by
  refine Ensures.bind (ensures_deref _ _) ?_
  intro thread _
  refine ensures_ite ?_ (ensures_ok holds)
  cases thread.node with
  | clear | tree => exact ensures_error _
  | dead bucket =>
      refine Ensures.bind (ensures_deref _ _) ?_
      intro object _
      refine Ensures.bind (ensures_mapsPut kept object.maps holds) ?_
      intro next nextHolds
      exact ensures_ok nextHolds

omit kept in
theorem ensures_mapsGet (maps : Option (Ref Maps)) (holds : property store.mapObjs) :
    Ensures (fun next => property next.mapObjs) (Maps.get store maps) := by
  cases maps with
  | none => exact ensures_ok holds
  | some ref =>
      refine Ensures.bind (ensures_deref _ _) ?_
      intro object _
      exact ensures_ok holds

omit kept in
theorem ensures_threadGet (ref : Ref Thread) (holds : property store.mapObjs) :
    Ensures (fun next => property next.mapObjs) (Thread.get store ref) := by
  refine Ensures.bind (ensures_deref _ _) ?_
  intro thread _
  exact ensures_ok holds

theorem ensures_updateThreadMaps (th leader : Ref Thread) (holds : property store.mapObjs) :
    Ensures (fun next => property next.mapObjs) (updateThreadMaps store th leader) := by
  refine Ensures.bind (ensures_deref _ _) ?_
  intro found _
  have holds' : property (if found.maps = none then store.newMaps leader else store).mapObjs := by
    split
    · exact holds
    · exact holds
  refine Ensures.bind (ensures_deref _ _) ?_
  intro again _
  cases again.maps with
  | none => exact ensures_ok holds'
  | some maps =>
      refine Ensures.bind (ensures_deref _ _) ?_
      intro thread _
      refine ensures_ite (ensures_ok holds') ?_
      have puts : Ensures (fun next => property next.mapObjs)
          (putMaps (if found.maps = none then store.newMaps leader else store) thread.maps) := by
        cases thread.maps with
        | none => exact ensures_ok holds'
        | some old =>
            refine Ensures.bind (ensures_deref _ _) ?_
            intro object _
            exact ensures_mapsPut kept (some old) holds'
      refine puts.bind ?_
      intro dropped droppedHolds
      refine Ensures.bind (ensures_mapsGet (some maps) droppedHolds) ?_
      intro shared sharedHolds
      exact ensures_threadPut kept leader sharedHolds

/-- Lookups keep the property. -/
def Looks (property : Heap Map → Prop) (lookup : Lookup τ) : Prop :=
  ∀ machine tgid tid, property machine.store.mapObjs →
    Ensures (fun result => property result.2.store.mapObjs) (lookup machine tgid tid)

/-- A move to a process looks up the leader, which keeps what lookups keep. -/
theorem ensures_updateThreadTgid {lookup : Lookup τ} (looks : Looks property lookup)
    {machine : State τ} (th : Ref Thread) (tgid : Pid) (holds : property machine.store.mapObjs) :
    Ensures (fun next => property next.store.mapObjs)
      (updateThreadTgid lookup machine th tgid) := by
  refine Ensures.bind (ensures_deref _ _) ?_
  intro thread _
  refine ensures_ite (ensures_ok holds) (ensures_ite (ensures_ok holds) ?_)
  refine Ensures.bind (looks _ tgid tgid holds) ?_
  rintro ⟨found, middle⟩ middleHolds
  cases found with
  | none => exact ensures_ok middleHolds
  | some leader =>
      refine Ensures.bind (ensures_updateThreadMaps kept th leader middleHolds) ?_
      intro next nextHolds
      exact ensures_ok nextHolds

theorem ensures_matched {lookup : Lookup τ} (looks : Looks property lookup) {machine : State τ}
    (th : Ref Thread) (tgid : Pid) (holds : property machine.store.mapObjs) :
    Ensures (fun result => property result.2.store.mapObjs) (matched lookup machine th tgid) := by
  refine Ensures.bind (ensures_updateThreadTgid kept looks th tgid holds) ?_
  intro middle middleHolds
  refine Ensures.bind (ensures_threadGet th middleHolds) ?_
  intro next nextHolds
  exact ensures_ok nextHolds

theorem ensures_initMaps {lookup : Lookup τ} (looks : Looks property lookup) {machine : State τ}
    (th : Ref Thread) (holds : property machine.store.mapObjs) :
    Ensures (fun result => property result.2.store.mapObjs) (initMaps lookup machine th) := by
  refine Ensures.bind (ensures_deref _ _) ?_
  intro thread _
  have leads : Ensures (fun next => property next.store.mapObjs)
      (leaderMaps lookup machine th thread.tgid thread.tid) := by
    refine ensures_ite (ensures_ok holds) ?_
    refine Ensures.bind (looks machine thread.tgid thread.tgid holds) ?_
    rintro ⟨found, middle⟩ middleHolds
    cases found with
    | none => exact ensures_ok middleHolds
    | some leader =>
        refine Ensures.bind ?_ fun next nextHolds => ensures_ok nextHolds
        refine Ensures.bind (ensures_deref _ _) ?_
        intro object _
        refine Ensures.bind (ensures_mapsGet object.maps middleHolds) ?_
        intro shared sharedHolds
        exact ensures_threadPut kept leader sharedHolds
  refine leads.bind ?_
  intro middle middleHolds
  refine Ensures.bind (ensures_deref _ _) ?_
  intro again _
  exact ensures_ok middleHolds

theorem looks_findnewThreadWithin (depth : Nat) : Looks property (findnewThreadWithin depth) := by
  induction depth with
  | zero => exact fun _ _ _ _ => ensures_error _
  | succ depth looks =>
      have descends : ∀ (machine : Machine) index tgid tid create, property machine.store.mapObjs →
          Ensures (fun result => property result.2.store.mapObjs)
            (descend (findnewThreadWithin depth) machine index tgid tid create) := by
        intro machine index tgid tid create holds
        unfold descend
        split
        · refine Ensures.bind (ensures_deref _ _) ?_
          intro thread _
          exact ensures_matched kept looks _ tgid holds
        · refine ensures_ite ?_ (ensures_ok holds)
          refine Ensures.bind (ensures_initMaps kept looks _ holds) ?_
          rintro ⟨ready, middle⟩ middleHolds
          refine ensures_ite ?_ ?_
          · refine Ensures.bind (ensures_threadGet _ middleHolds) ?_
            intro next nextHolds
            exact ensures_ok nextHolds
          · refine Ensures.bind (ensures_threadPut kept _ middleHolds) ?_
            intro next nextHolds
            exact ensures_ok nextHolds
      intro machine tgid tid holds
      unfold findnewThreadWithin findnewThreadIn
      split
      · refine Ensures.bind (ensures_deref _ _) ?_
        intro thread _
        exact ensures_ite (ensures_matched kept looks _ tgid holds)
          (descends _ (Machine.bucket tid) tgid tid true holds)
      · exact descends machine (Machine.bucket tid) tgid tid true holds

theorem looks_findnewThread : Looks property findnewThread := looks_findnewThreadWithin kept 2

end Kept

/-- The put of a map counts it down, and frees it with the last reference. -/
theorem mapObjs_of_mapPut {next : Store} {ref : Ref Map} (ran : mapPut store ref = .ok next) :
    ∃ map, store.mapObjs.get? ref = some map ∧ next.mapObjs =
      if map.refcnt - 1 = 0 then store.mapObjs.free ref
      else store.mapObjs.modify ref fun map => { map with refcnt := map.refcnt - 1 } := by
  obtain ⟨map, isLive, rest⟩ := bind_eq_ok_iff.mp ran
  refine ⟨map, deref_eq_ok_iff.mp isLive, ?_⟩
  dsimp only at rest
  split at rest
  · rename_i last
    obtain ⟨object, -, rest⟩ := bind_eq_ok_iff.mp rest
    obtain ⟨middle, put, done⟩ := bind_eq_ok_iff.mp rest
    obtain ⟨_, -, put⟩ := bind_eq_ok_iff.mp put
    cases put
    cases done
    rw [if_pos last]
    cases map.listed with
    | none => simp [Map.listDel, Heap.free_modify]
    | some owner => simp [Map.listDel, Heap.free_modify]
  · rename_i more
    cases rest
    rw [if_neg more]
    rfl

/-- Putting maps adds none. -/
theorem kept_atMost (bound : Nat) : Kept fun heap => (heap.count fun _ => True) ≤ bound where
  unlink := by
    intro heap pos atMost
    rw [Heap.count_modify_of_iff]
    · exact atMost
    · exact fun _ _ => Iff.rfl
  put := by
    intro store ref atMost next ran
    obtain ⟨map, live, mapObjs⟩ := mapObjs_of_mapPut ran
    rw [mapObjs]
    split
    · have count : (store.mapObjs.free ref).count (fun _ => True) + (if True then 1 else 0) =
          store.mapObjs.count fun _ => True := Heap.count_free live
      omega
    · rw [Heap.count_modify_of_iff]
      · exact atMost
      · exact fun _ _ => Iff.rfl

/-- A map that has one reference has it until it is destroyed. -/
theorem kept_one (new : Ref Map) :
    Kept fun heap => ∀ map, heap.get? new = some map → map.refcnt = 1 where
  unlink := by
    intro heap pos one map live
    obtain ⟨before, wasLive, rfl⟩ := Heap.get?_modify_eq_some.mp live
    have count := one before wasLive
    split
    · exact count
    · exact count
  put := by
    intro store ref one next ran after afterLive
    obtain ⟨map, live, mapObjs⟩ := mapObjs_of_mapPut ran
    rw [mapObjs] at afterLive
    split at afterLive
    · obtain ⟨-, wasLive⟩ := Heap.get?_free_eq_some.mp afterLive
      exact one after wasLive
    · rename_i more
      obtain ⟨before, wasLive, rfl⟩ := Heap.get?_modify_eq_some.mp afterLive
      split
      · rename_i same
        subst same
        cases live.symm.trans wasLive
        rw [one map live] at more
        exact absurd rfl more
      · exact one before wasLive

theorem ensures_dsoGet {heap : Heap Map} (dso : Ref Dso) (same : store.mapObjs = heap) :
    Ensures (fun next => next.mapObjs = heap) (Dso.get store dso) := by
  refine Ensures.bind (ensures_deref _ _) ?_
  intro object _
  exact ensures_ok same

theorem ensures_dsoPut {heap : Heap Map} (dso : Ref Dso) (same : store.mapObjs = heap) :
    Ensures (fun next => next.mapObjs = heap) (Dso.put store dso) := by
  refine Ensures.bind (ensures_deref _ _) ?_
  intro object _
  exact ensures_ok same

theorem ensures_findlink {heap : Heap Map} (dso : Option (Ref Dso)) (name : List Char)
    (same : store.mapObjs = heap) :
    Ensures (fun result => result.2.mapObjs = heap) (Dso.findlinkByLongname store dso name) := by
  unfold Dso.findlinkByLongname
  split
  · refine Ensures.bind (ensures_deref _ _) ?_
    intro object _
    exact ensures_ok same
  · cases dso with
    | none => exact ensures_ok same
    | some linked => exact ensures_ok same

theorem ensures_findnew {heap : Heap Map} (name : List Char) (same : store.mapObjs = heap) :
    Ensures (fun result => result.2.mapObjs = heap) (Dsos.findnew store name) := by
  have sought : Ensures (fun _ => True) (Dsos.find store name false) := fun _ _ => trivial
  refine sought.bind ?_
  intro found _
  cases found with
  | some dso =>
      refine Ensures.bind (ensures_dsoGet dso same) ?_
      intro next nextSame
      exact ensures_ok nextSame
  | none =>
      have added : Ensures (fun result => result.2.mapObjs = heap) (Dsos.addnew store name) := by
        have linked : Ensures (fun next => next.mapObjs = heap) (Dsos.add
            { store with dsos := store.dsos.alloc (Dso.new name) } store.dsos.nextRef) := by
          refine Ensures.bind (ensures_deref _ _) ?_
          intro object _
          refine Ensures.bind (ensures_findlink _ _ same) ?_
          intro linked linkedSame
          exact ensures_dsoGet _ linkedSame
        refine linked.bind ?_
        intro middle middleSame
        refine Ensures.bind (ensures_dsoPut _ middleSame) ?_
        intro next nextSame
        exact ensures_ok nextSame
      refine added.bind ?_
      rintro ⟨dso, middle⟩ middleSame
      refine Ensures.bind (ensures_dsoGet dso middleSame) ?_
      intro next nextSame
      exact ensures_ok nextSame

/-- `map__new` adds a map with one reference. -/
theorem ensures_mapNew (event : MmapEvent) :
    Ensures (fun result => result.1 = store.mapObjs.nextRef ∧
      ∃ dso, result.2.mapObjs = store.mapObjs.alloc (Map.init event dso))
        (Map.new store event) := by
  refine Ensures.bind (ensures_findnew event.filename rfl) ?_
  rintro ⟨dso, found⟩ same
  refine Ensures.bind (ensures_dsoGet dso same) ?_
  intro held heldSame
  refine Ensures.bind (ensures_dsoPut dso rfl) ?_
  intro next nextSame
  refine ensures_ok ⟨?_, dso, ?_⟩
  · change held.mapObjs.nextRef = _
    rw [heldSame]
  · change next.mapObjs = _
    rw [nextSame, heldSame]

theorem Kept.and {other : Heap Map → Prop} (first : Kept property) (second : Kept other) :
    Kept fun heap => property heap ∧ other heap where
  unlink := fun heap pos holds => ⟨first.unlink heap pos holds.1, second.unlink heap pos holds.2⟩
  put := fun store ref holds next ran =>
    ⟨first.put store ref holds.1 next ran, second.put store ref holds.2 next ran⟩

/-- Without the insertion the map of a reported line is destroyed again. -/
theorem ensures_recordMap {bound : Nat} (event : MmapEvent) (th : Option (Ref Thread))
    (atMost : store.mapCount ≤ bound) :
    Ensures (fun result => result.2.mapCount ≤ bound) (recordMap event store th) := by
  refine Ensures.bind (ensures_mapNew event) ?_
  rintro ⟨map, created⟩ ⟨isNew, dso, allocated⟩
  change map = _ at isNew
  change created.mapObjs = _ at allocated
  have holds : (created.mapObjs.count fun _ => True) ≤ bound + 1 ∧
      ∀ object, created.mapObjs.get? map = some object → object.refcnt = 1 := by
    rw [allocated, isNew]
    refine ⟨?_, ?_⟩
    · rw [Heap.count_alloc, if_pos trivial]
      exact Nat.add_le_add_right atMost 1
    · intro object live
      rw [Heap.get?_alloc_nextRef] at live
      cases live
      rfl
  have kept := (kept_atMost (bound + 1)).and (kept_one map)
  have puts : Ensures (fun next => (next.mapObjs.count fun _ => True) ≤ bound + 1 ∧
      ∀ object, next.mapObjs.get? map = some object → object.refcnt = 1)
      (putThread created th) := by
    cases th with
    | none => exact ensures_ok holds
    | some th => exact ensures_threadPut kept th holds
  refine puts.bind ?_
  rintro released ⟨count, one⟩
  have last : Ensures (fun next => next.mapCount ≤ bound) (mapPut released map) := by
    intro next ran
    obtain ⟨object, live, mapObjs⟩ := mapObjs_of_mapPut ran
    have last : object.refcnt - 1 = 0 := by
      rw [one object live]
      rfl
    rw [if_pos last] at mapObjs
    have fewer : (released.mapObjs.free map).count (fun _ => True) + (if True then 1 else 0) =
        released.mapObjs.count fun _ => True := Heap.count_free live
    rw [if_pos trivial] at fewer
    rw [Store.mapCount, mapObjs]
    omega
  refine last.bind ?_
  intro next nextAtMost
  exact ensures_ok nextAtMost

/-- A text leaves no more maps than there were: the call that would insert them is in an
assertion. -/
theorem ensures_prepareLines {bound : Nat} (tgid tid : Pid) (lines : List (List Char))
    (scratch : Scratch) {machine : Machine} (atMost : machine.store.mapCount ≤ bound) :
    Ensures (fun next => next.store.mapCount ≤ bound)
      (prepareLines findnewThread tgid tid lines scratch machine) := by
  induction lines generalizing scratch machine with
  | nil => exact ensures_ok atMost
  | cons bf rest ih =>
      have read : Ensures (fun _ => True) (scratch.line bf tgid tid) := fun _ _ => trivial
      refine read.bind ?_
      rintro ⟨event, scratch⟩ _
      cases event with
      | none => exact ih scratch atMost
      | some event =>
          have processed : Ensures (fun result => result.2.store.mapCount ≤ bound)
              (processMmap findnewThread machine event) := by
            refine Ensures.bind
              (looks_findnewThread (kept_atMost bound) machine event.tgid event.tid atMost) ?_
            rintro ⟨found, middle⟩ middleAtMost
            refine Ensures.bind (ensures_recordMap event found middleAtMost) ?_
            rintro ⟨done, store⟩ recorded
            exact ensures_ok recorded
          refine processed.bind ?_
          rintro ⟨done, next⟩ nextAtMost
          exact ih scratch nextAtMost

end Ndebug

end DwBpf
