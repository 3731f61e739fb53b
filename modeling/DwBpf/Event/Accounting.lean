import DwBpf.Event.Record
import DwBpf.Event.Visit

/-! # References to maps, map and dso objects

One invariant relates the counters of maps, map and dso objects to the pointers
to them (`DwBpf.Store.Accounted`, next to `DwBpf.Plain.Sound` for threads and
maps). Lookups of threads, samples and recorded maps keep it, so it holds between
the calls of every run (`DwBpf.runs_account`).
-/

namespace DwBpf

/-- The maps, the list and the tree of dsos are accounted for. -/
structure Store.Accounted (store : Store) : Prop where
  entries : ∀ maps object, store.maps.get? maps = some object → ∀ ref ∈ object.entries.toList,
    ∃ map, store.mapObjs.get? ref = some map ∧ map.listed = some maps.addr
  nodup : ∀ maps object, store.maps.get? maps = some object → object.entries.toList.Nodup
  head : ∀ maps object, store.maps.get? maps = some object →
    object.head.Perm object.entries.toList
  owned : ∀ ref map, store.mapObjs.get? ref = some map → map.refcnt = 1 ∧
    ∃ maps object, store.maps.get? maps = some object ∧ ref ∈ object.entries.toList
  named : ∀ ref map, store.mapObjs.get? ref = some map →
    ∃ dso, store.dsos.get? map.dso = some dso
  counted : ∀ ref dso, store.dsos.get? ref = some dso →
    dso.refcnt = BitVec.ofNat 32 (1 + store.mapObjs.count fun map => map.dso = ref)
  interned : store.Interned
  rooted : ∀ ref dso, store.dsos.get? ref = some dso → ref ∈ store.dsosRoot.toList
  listed : store.dsosHead.Perm store.dsosRoot.toList

theorem accounted_empty : Store.empty.Accounted where
  entries := fun _ _ stored => nomatch stored
  nodup := fun _ _ stored => nomatch stored
  head := fun _ _ stored => nomatch stored
  owned := fun _ _ live => nomatch live
  named := fun _ _ live => nomatch live
  counted := fun _ _ live => nomatch live
  interned := ⟨fun _ member => (nomatch member), .nil⟩
  rooted := fun _ _ live => nomatch live
  listed := .nil

/-- A change that comes and goes with empty maps objects and the counters of the
others only. -/
structure Store.Regroups (store next : Store) : Prop where
  mapObjs : next.mapObjs = store.mapObjs
  dsos : next.dsos = store.dsos
  dsosHead : next.dsosHead = store.dsosHead
  dsosRoot : next.dsosRoot = store.dsosRoot
  kept : ∀ maps object, store.maps.get? maps = some object → object.entries.toList ≠ [] →
    ∃ after, next.maps.get? maps = some after ∧ after.entries = object.entries ∧
      after.head = object.head
  came : ∀ maps after, next.maps.get? maps = some after →
    (after.entries.toList = [] ∧ after.head = []) ∨
      ∃ object, store.maps.get? maps = some object ∧ after.entries = object.entries ∧
        after.head = object.head

section Regroups

variable {store next last : Store}

/-- Regrouping twice is regrouping. -/
theorem Store.Regroups.trans (first : store.Regroups next) (second : next.Regroups last) :
    store.Regroups last where
  mapObjs := second.mapObjs.trans first.mapObjs
  dsos := second.dsos.trans first.dsos
  dsosHead := second.dsosHead.trans first.dsosHead
  dsosRoot := second.dsosRoot.trans first.dsosRoot
  kept := by
    intro maps object stored occupied
    obtain ⟨middle, isMiddle, entries, head⟩ := first.kept maps object stored occupied
    obtain ⟨after, isAfter, entries', head'⟩ :=
      second.kept maps middle isMiddle (by rwa [entries])
    exact ⟨after, isAfter, entries'.trans entries, head'.trans head⟩
  came := by
    intro maps after isAfter
    rcases second.came maps after isAfter with empty | ⟨middle, isMiddle, entries', head'⟩
    · exact .inl empty
    · rcases first.came maps middle isMiddle with empty | ⟨object, stored, entries, head⟩
      · exact .inl ⟨by rw [entries', empty.1], by rw [head', empty.2]⟩
      · exact .inr ⟨object, stored, entries'.trans entries, head'.trans head⟩

theorem Store.regroups_of_eq (maps : next.maps = store.maps)
    (mapObjs : next.mapObjs = store.mapObjs)
    (dsos : next.dsos = store.dsos) (dsosHead : next.dsosHead = store.dsosHead)
    (dsosRoot : next.dsosRoot = store.dsosRoot) : store.Regroups next where
  mapObjs := mapObjs
  dsos := dsos
  dsosHead := dsosHead
  dsosRoot := dsosRoot
  kept := fun _ object stored _ => ⟨object, by rw [maps, stored], rfl, rfl⟩
  came := fun _ after isAfter => .inr ⟨after, by rw [← maps, isAfter], rfl, rfl⟩

theorem Store.regroups_modifyThread (th : Ref Thread) (change : Thread → Thread) :
    store.Regroups (store.modifyThread th change) :=
  regroups_of_eq rfl rfl rfl rfl rfl

theorem Store.regroups_modifyMaps {maps : Ref Maps} {change : Maps → Maps}
    (keeps : ∀ object, (change object).entries = object.entries ∧
      (change object).head = object.head) : store.Regroups (store.modifyMaps maps change) where
  mapObjs := rfl
  dsos := rfl
  dsosHead := rfl
  dsosRoot := rfl
  kept := by
    intro ref object stored _
    refine ⟨_, Heap.get?_modify_eq_some.mpr ⟨object, stored, rfl⟩, ?_⟩
    split
    · exact keeps object
    · exact ⟨rfl, rfl⟩
  came := by
    intro ref after isAfter
    obtain ⟨object, stored, rfl⟩ := Heap.get?_modify_eq_some.mp isAfter
    refine .inr ⟨object, stored, ?_⟩
    split
    · exact keeps object
    · exact ⟨rfl, rfl⟩

/-- Maps without ranges may go. -/
theorem Store.regroups_freeMaps {maps : Ref Maps} {left : Maps}
    (stored : store.maps.get? maps = some left) (empty : left.entries.toList = []) :
    store.Regroups { store with maps := store.maps.free maps } where
  mapObjs := rfl
  dsos := rfl
  dsosHead := rfl
  dsosRoot := rfl
  kept := by
    intro ref object isStored occupied
    have other : ref ≠ maps := by
      rintro rfl
      cases stored.symm.trans isStored
      exact occupied empty
    exact ⟨object, Heap.get?_free_eq_some.mpr ⟨other, isStored⟩, rfl, rfl⟩
  came := by
    intro ref after isAfter
    obtain ⟨-, wasStored⟩ := Heap.get?_free_eq_some.mp isAfter
    exact .inr ⟨after, wasStored, rfl, rfl⟩

theorem Store.regroups_dropMaps {maps : Ref Maps} {left : Maps}
    (stored : store.maps.get? maps = some left) (empty : left.entries.toList = []) :
    store.Regroups (store.dropMaps maps left) := by
  unfold Store.dropMaps
  split
  · exact Store.regroups_freeMaps stored empty
  · exact Store.regroups_modifyMaps fun _ => ⟨rfl, rfl⟩

/-- Finding or making a leader adds empty maps at most. -/
theorem Plain.regroups_ensure (machine : Plain) (tgid : Pid) :
    machine.store.Regroups (machine.ensure tgid).store := by
  unfold Plain.ensure
  cases machine.table tgid with
  | some leader => exact Store.regroups_of_eq rfl rfl rfl rfl rfl
  | none =>
      refine ⟨rfl, rfl, rfl, rfl, ?_, ?_⟩
      · intro maps object stored _
        exact ⟨object, Heap.get?_alloc_of_some _ stored, rfl, rfl⟩
      · intro maps after isAfter
        rcases Heap.get?_alloc_eq_some.mp isAfter with ⟨-, rfl⟩ | stored
        · exact .inl ⟨rfl, rfl⟩
        · exact .inr ⟨after, stored, rfl, rfl⟩

theorem Plain.regroups_joined (machine : Plain) (tgid : Pid) (th leader : Ref Thread)
    (new : Ref Maps) : machine.store.Regroups (machine.joined tgid th leader new).store := by
  have shared : machine.store.Regroups (machine.store.modifyMaps new fun maps =>
      { maps with refcnt := maps.refcnt + 1 }) := Store.regroups_modifyMaps fun _ => ⟨rfl, rfl⟩
  exact (shared.trans (Store.regroups_modifyThread th _)).trans
    (Store.regroups_modifyThread leader _)

/-- A lookup moves threads between maps, and changes no range, map or dso. -/
theorem Plain.Outcome.regroups {machine next : Plain} {tgid tid : Pid}
    {found : Option (Ref Thread)} (outcome : Outcome machine tgid tid (.ok (found, next))) :
    machine.store.Regroups next.store := by
  cases outcome with
  | leader self led => exact (regroups_ensure machine tgid).trans (Store.regroups_modifyThread _ _)
  | stays => exact Store.regroups_modifyThread _ _
  | shares moves shares =>
      exact ((regroups_ensure machine tgid).trans (Store.regroups_modifyThread _ _)).trans
        (Store.regroups_modifyThread _ _)
  | @leaves th leader _ old new left leaves empty counted =>
      have dropped := Store.regroups_dropMaps (get?_maps_ensure leaves.stored tgid) empty
      exact ((regroups_ensure machine tgid).trans dropped).trans
        (regroups_joined ⟨_, (machine.ensure tgid).table⟩ tgid th leader new)
  | enters enters counted =>
      have enrolled : machine.store.Regroups (machine.enroll tgid tid).store :=
        Store.regroups_of_eq rfl rfl rfl rfl rfl
      exact (enrolled.trans (regroups_ensure _ tgid)).trans (regroups_joined _ _ _ _ _)

/-- What the trees of the maps objects had in common, they still have. -/
theorem Store.Regroups.entries (regroups : store.Regroups next)
    (property : Ref Maps → List (Ref Map) → Prop) (empty : ∀ maps, property maps [])
    (before : ∀ maps object, store.maps.get? maps = some object →
      property maps object.entries.toList)
    (maps : Ref Maps) (after : Maps) (isAfter : next.maps.get? maps = some after) :
    property maps after.entries.toList := by
  rcases regroups.came maps after isAfter with none | ⟨object, stored, same, -⟩
  · rw [none.1]
    exact empty maps
  · rw [same]
    exact before maps object stored

/-- A map stays in its maps object. -/
theorem Store.Regroups.owner (regroups : store.Regroups next) {ref : Ref Map}
    (owned : ∃ maps object, store.maps.get? maps = some object ∧ ref ∈ object.entries.toList) :
    ∃ maps after, next.maps.get? maps = some after ∧ ref ∈ after.entries.toList := by
  obtain ⟨maps, object, stored, member⟩ := owned
  obtain ⟨after, isAfter, same, -⟩ :=
    regroups.kept maps object stored (List.ne_nil_of_mem member)
  exact ⟨maps, after, isAfter, same ▸ member⟩

/-- What regroups keeps every map and dso accounted for. -/
theorem Store.Accounted.regroups (accounted : store.Accounted) (regroups : store.Regroups next) :
    next.Accounted where
  entries := by
    rw [regroups.mapObjs]
    exact regroups.entries (fun maps refs => ∀ ref ∈ refs, ∃ map,
      store.mapObjs.get? ref = some map ∧ map.listed = some maps.addr) (fun _ _ => nofun)
        accounted.entries
  nodup := regroups.entries (fun _ => List.Nodup) (fun _ => .nil) accounted.nodup
  head := by
    intro maps after isAfter
    rcases regroups.came maps after isAfter with empty | ⟨object, stored, entries, head⟩
    · rw [empty.1, empty.2]
    · rw [entries, head]
      exact accounted.head maps object stored
  owned := by
    intro ref map live
    rw [regroups.mapObjs] at live
    obtain ⟨one, isOwned⟩ := accounted.owned ref map live
    exact ⟨one, regroups.owner isOwned⟩
  named := by
    rw [regroups.mapObjs, regroups.dsos]
    exact accounted.named
  counted := by
    rw [regroups.mapObjs, regroups.dsos]
    exact accounted.counted
  interned := by
    refine ⟨?_, ?_⟩
    · rw [regroups.dsosRoot, regroups.dsos]
      exact accounted.interned.live
    · unfold Dso.name
      rw [regroups.dsosRoot, regroups.dsos]
      exact accounted.interned.sorted
  rooted := by
    rw [regroups.dsosRoot, regroups.dsos]
    exact accounted.rooted
  listed := by
    rw [regroups.dsosHead, regroups.dsosRoot]
    exact accounted.listed

end Regroups

section Quiet

variable {store next : Store}

theorem Store.Quiet.was_dso (quiet : store.Quiet next) {ref : Ref Dso} {after : Dso}
    (live : next.dsos.get? ref = some after) :
    ∃ before, store.dsos.get? ref = some before ∧ after.core = before.core := by
  have same := (quiet.dsos ref).symm
  rw [live, Option.map_some, Option.map_eq_some_iff] at same
  obtain ⟨before, wasLive, equal⟩ := same
  exact ⟨before, wasLive, equal.symm⟩

theorem Store.Quiet.live_dso (quiet : store.Quiet next) {ref : Ref Dso} {dso : Dso}
    (live : store.dsos.get? ref = some dso) :
    ∃ after, next.dsos.get? ref = some after ∧ after.core = dso.core := by
  have same := quiet.dsos ref
  rw [live, Option.map_some, Option.map_eq_some_iff] at same
  exact same

theorem Store.Quiet.name_eq (quiet : store.Quiet next) (ref : Ref Dso) :
    Dso.name next ref = Dso.name store ref := by
  have same := congrArg (Option.map Prod.fst) (quiet.dsos ref)
  simp only [Option.map_map] at same
  unfold Dso.name
  exact congrArg (fun names : Option (List Char) => names.getD []) same

theorem Store.Accounted.quiet (accounted : store.Accounted) (quiet : store.Quiet next) :
    next.Accounted where
  entries := by
    rw [quiet.maps, quiet.mapObjs]
    exact accounted.entries
  nodup := by
    rw [quiet.maps]
    exact accounted.nodup
  head := by
    rw [quiet.maps]
    exact accounted.head
  owned := by
    rw [quiet.maps, quiet.mapObjs]
    exact accounted.owned
  named := by
    intro ref map live
    rw [quiet.mapObjs] at live
    obtain ⟨dso, isLive⟩ := accounted.named ref map live
    obtain ⟨after, afterLive, -⟩ := quiet.live_dso isLive
    exact ⟨after, afterLive⟩
  counted := by
    intro ref after live
    obtain ⟨before, wasLive, core⟩ := quiet.was_dso live
    simp only [Dso.core, Prod.mk.injEq] at core
    rw [core.2.2, quiet.mapObjs]
    exact accounted.counted ref before wasLive
  interned := by
    refine ⟨?_, ?_⟩
    · intro ref member
      rw [quiet.dsosRoot] at member
      obtain ⟨dso, isLive⟩ := accounted.interned.live ref member
      obtain ⟨after, afterLive, -⟩ := quiet.live_dso isLive
      exact ⟨after, afterLive⟩
    · rw [quiet.dsosRoot]
      simp only [quiet.name_eq]
      exact accounted.interned.sorted
  rooted := by
    intro ref after live
    obtain ⟨before, wasLive, -⟩ := quiet.was_dso live
    rw [quiet.dsosRoot]
    exact accounted.rooted ref before wasLive
  listed := by
    rw [quiet.dsosHead, quiet.dsosRoot]
    exact accounted.listed

end Quiet

section Recorded

variable {store next found : Store} {name : List Char} {dso : Ref Dso}

/-- A dso stays when another is looked up or added. -/
theorem Dsos.Found.live_of_live (isFound : Dsos.Found store name dso found) {ref : Ref Dso}
    {object : Dso} (live : store.dsos.get? ref = some object) :
    ∃ after, found.dsos.get? ref = some after ∧ after.longName = object.longName := by
  cases isFound with
  | known member isLive named =>
      refine ⟨_, Heap.get?_modify_eq_some.mpr ⟨object, live, rfl⟩, ?_⟩
      split
      · rfl
      · rfl
  | added fell => exact ⟨object, Heap.get?_alloc_of_some _ live, rfl⟩

/-- Names stay unique when a dso is found or added. -/
theorem Dsos.Found.interned (isFound : Dsos.Found store name dso found)
    (interned : store.Interned) : found.Interned := by
  have same : ∀ ref ∈ store.dsosRoot.toList, Dso.name found ref = Dso.name store ref := by
    intro ref member
    obtain ⟨object, live⟩ := interned.live ref member
    obtain ⟨after, afterLive, longName⟩ := isFound.live_of_live live
    rw [Dso.name_of_live live, Dso.name_of_live afterLive, longName]
  have sorted : store.dsosRoot.toList.Pairwise fun first second =>
      Dso.name found first < Dso.name found second := by
    refine interned.sorted.imp_of_mem ?_
    intro first second firstMem secondMem below
    rw [same first firstMem, same second secondMem]
    exact below
  have live : ∀ ref ∈ store.dsosRoot.toList, ∃ object, found.dsos.get? ref = some object := by
    intro ref member
    obtain ⟨object, live⟩ := interned.live ref member
    obtain ⟨after, afterLive, -⟩ := isFound.live_of_live live
    exact ⟨after, afterLive⟩
  cases isFound with
  | known member isLive named => exact ⟨live, sorted⟩
  | @added path fell =>
      have perm := Tree.toList_link_of_locate store.dsos.nextRef fell
      refine ⟨?_, ?_⟩
      · intro ref member
        rcases List.mem_cons.mp (perm.mem_iff.mp member) with rfl | before
        · exact ⟨_, Heap.get?_alloc_nextRef _ _⟩
        · exact live ref before
      · refine Tree.sorted_link ?_ sorted fell
        intro ref member
        obtain ⟨object, isLive⟩ := interned.live ref member
        have new : Dso.name { store with
            dsos := store.dsos.alloc ⟨name, basename name, 2, .new⟩
            dsosHead := store.dsosHead ++ [store.dsos.nextRef]
            dsosRoot := Tree.link path store.dsos.nextRef } store.dsos.nextRef = name := by
          simp [Dso.name]
        rw [Dso.steer_of_live isLive, same ref member, new]

/-- Every dso that is there is in the tree, also the new one. -/
theorem Dsos.Found.rooted (isFound : Dsos.Found store name dso found)
    (rooted : ∀ ref object, store.dsos.get? ref = some object → ref ∈ store.dsosRoot.toList) :
    ∀ ref object, found.dsos.get? ref = some object → ref ∈ found.dsosRoot.toList := by
  intro ref object live
  cases isFound with
  | known member isLive named =>
      obtain ⟨before, wasLive, -⟩ := Heap.get?_modify_eq_some.mp live
      exact rooted ref before wasLive
  | added fell =>
      have perm := Tree.toList_link_of_locate store.dsos.nextRef fell
      apply perm.mem_iff.mpr
      rcases Heap.get?_alloc_eq_some.mp live with ⟨rfl, -⟩ | wasLive
      · exact List.mem_cons_self ..
      · exact List.mem_cons_of_mem _ (rooted ref object wasLive)

theorem Dsos.Found.listed (isFound : Dsos.Found store name dso found)
    (listed : store.dsosHead.Perm store.dsosRoot.toList) :
    found.dsosHead.Perm found.dsosRoot.toList := by
  cases isFound with
  | known member isLive named => exact listed
  | added fell =>
      have perm := Tree.toList_link_of_locate store.dsos.nextRef fell
      exact ((List.perm_append_singleton _ _).trans (listed.cons _)).trans perm.symm

/-- The dso that is found is counted once more, for the new map. -/
theorem Dsos.Found.counted (isFound : Dsos.Found store name dso found)
    (accounted : store.Accounted) {ref : Ref Dso} {object : Dso}
    (live : found.dsos.get? ref = some object) :
    object.refcnt = BitVec.ofNat 32 (1 + ((store.mapObjs.count fun map => map.dso = ref) +
      if dso = ref then 1 else 0)) := by
  cases isFound with
  | known member isLive named =>
      obtain ⟨before, wasLive, rfl⟩ := Heap.get?_modify_eq_some.mp live
      have count := accounted.counted ref before wasLive
      by_cases same : ref = dso
      · subst same
        rw [if_pos rfl, if_pos rfl, ← Nat.add_assoc, BitVec.ofNat_add, ← count]
        rfl
      · rw [if_neg same, if_neg (Ne.symm same), Nat.add_zero]
        exact count
  | added fell =>
      rcases Heap.get?_alloc_eq_some.mp live with ⟨rfl, rfl⟩ | wasLive
      · have none : (store.mapObjs.count fun map => map.dso = store.dsos.nextRef) = 0 := by
          apply Heap.count_eq_zero.mpr
          intro map object isLive same
          obtain ⟨dso, dsoLive⟩ := accounted.named map object isLive
          rw [same, Heap.get?_nextRef] at dsoLive
          cases dsoLive
        rw [none, if_pos rfl]
        rfl
      · rw [if_neg (Heap.ne_nextRef wasLive).symm, Nat.add_zero]
        exact accounted.counted ref object wasLive

variable {event : MmapEvent} {th : Ref Thread} {maps : Ref Maps} {object : Maps}
  {path : List (Frame (Ref Map))}

theorem Recorded.perm (recorded : Recorded event store th next dso found maps object path) :
    (Tree.link path store.mapObjs.nextRef).toList.Perm
      (store.mapObjs.nextRef :: object.entries.toList) :=
  Tree.toList_link_of_locate _ recorded.fell

/-- The maps objects afterwards: one of them has the new map. -/
theorem Recorded.maps_cases (recorded : Recorded event store th next dso found maps object path)
    {ref : Ref Maps} {after : Maps} (live : next.maps.get? ref = some after) :
    (ref = maps ∧ after.entries = Tree.link path store.mapObjs.nextRef ∧
      after.head = object.head ++ [store.mapObjs.nextRef]) ∨
      (ref ≠ maps ∧ store.maps.get? ref = some after) := by
  rw [recorded.entered] at live
  obtain ⟨before, wasLive, rfl⟩ := Heap.get?_modify_eq_some.mp live
  by_cases same : ref = maps
  · subst same
    cases recorded.stored.symm.trans wasLive
    rw [if_pos rfl]
    exact .inl ⟨rfl, rfl, rfl⟩
  · rw [if_neg same]
    exact .inr ⟨same, wasLive⟩

/-- Recording a map accounts for it and its dso: the dso gets one more reference, the new
map is in the tree and in the list of its maps object, and all other entries are as they
were. -/
theorem Store.Accounted.recorded (accounted : store.Accounted)
    (recorded : Recorded event store th next dso found maps object path) : next.Accounted where
  entries := by
    intro ref after live map member
    rw [recorded.allocated]
    rcases recorded.maps_cases live with ⟨rfl, entries, -⟩ | ⟨-, wasLive⟩
    · rw [entries] at member
      rcases List.mem_cons.mp (recorded.perm.mem_iff.mp member) with rfl | before
      · exact ⟨_, Heap.get?_alloc_nextRef _ _, rfl⟩
      · obtain ⟨stored, isStored, listed⟩ := accounted.entries ref object recorded.stored map before
        exact ⟨stored, Heap.get?_alloc_of_some _ isStored, listed⟩
    · obtain ⟨stored, isStored, listed⟩ := accounted.entries ref after wasLive map member
      exact ⟨stored, Heap.get?_alloc_of_some _ isStored, listed⟩
  nodup := by
    intro ref after live
    rcases recorded.maps_cases live with ⟨rfl, entries, -⟩ | ⟨-, wasLive⟩
    · rw [entries, recorded.perm.nodup_iff, List.nodup_cons]
      refine ⟨?_, accounted.nodup ref object recorded.stored⟩
      intro member
      obtain ⟨stored, isStored, -⟩ := accounted.entries ref object recorded.stored _ member
      exact Heap.ne_nextRef isStored rfl
    · exact accounted.nodup ref after wasLive
  head := by
    intro ref after live
    rcases recorded.maps_cases live with ⟨rfl, entries, head⟩ | ⟨-, wasLive⟩
    · rw [entries, head]
      exact ((List.perm_append_singleton _ _).trans
        ((accounted.head ref object recorded.stored).cons _)).trans recorded.perm.symm
    · exact accounted.head ref after wasLive
  owned := by
    intro ref map live
    rw [recorded.allocated] at live
    have newLive : ∃ after, next.maps.get? maps = some after ∧
        after.entries = Tree.link path store.mapObjs.nextRef := by
      rw [recorded.entered]
      exact ⟨_, Heap.get?_modify_eq_some.mpr ⟨object, recorded.stored, (if_pos rfl).symm⟩, rfl⟩
    obtain ⟨after, afterLive, entries⟩ := newLive
    rcases Heap.get?_alloc_eq_some.mp live with ⟨rfl, rfl⟩ | wasLive
    · refine ⟨rfl, maps, after, afterLive, ?_⟩
      rw [entries, recorded.perm.mem_iff]
      exact List.mem_cons_self ..
    · obtain ⟨one, owner, owning, stored, member⟩ := accounted.owned ref map wasLive
      by_cases same : owner = maps
      · subst same
        cases recorded.stored.symm.trans stored
        refine ⟨one, owner, after, afterLive, ?_⟩
        rw [entries, recorded.perm.mem_iff]
        exact List.mem_cons_of_mem _ member
      · refine ⟨one, owner, owning, ?_, member⟩
        rw [recorded.entered, Heap.get?_modify_of_ne _ same, stored]
  named := by
    intro ref map live
    rw [recorded.allocated] at live
    rw [recorded.dsos]
    rcases Heap.get?_alloc_eq_some.mp live with ⟨-, rfl⟩ | wasLive
    · obtain ⟨object, isLive, -⟩ := recorded.interned.live
      exact ⟨object, isLive⟩
    · obtain ⟨object, isLive⟩ := accounted.named ref map wasLive
      obtain ⟨after, afterLive, -⟩ := recorded.interned.live_of_live isLive
      exact ⟨after, afterLive⟩
  counted := by
    intro ref object live
    rw [recorded.dsos] at live
    rw [recorded.allocated, Heap.count_alloc]
    exact recorded.interned.counted accounted live
  interned := by
    have interned := recorded.interned.interned accounted.interned
    refine ⟨?_, ?_⟩
    · rw [recorded.dsosRoot, recorded.dsos]
      exact interned.live
    · unfold Dso.name
      rw [recorded.dsosRoot, recorded.dsos]
      exact interned.sorted
  rooted := by
    rw [recorded.dsosRoot, recorded.dsos]
    exact recorded.interned.rooted accounted.rooted
  listed := by
    rw [recorded.dsosHead, recorded.dsosRoot]
    exact recorded.interned.listed accounted.listed

end Recorded

theorem Plain.Visited.accounted {visit : Visit} {machine middle next : Plain} {tgid tid : Pid}
    {th : Ref Thread} (visited : Visited visit machine tgid tid th middle next)
    (accounted : machine.store.Accounted) : next.store.Accounted := by
  have accountedMiddle := accounted.regroups visited.outcome.regroups
  rcases Visit.quiet_or_record visited.worked with quiet | ⟨event, created, -, ran⟩
  · exact accountedMiddle.quiet quiet
  · obtain ⟨-, thread, live, -⟩ := visited.home
    obtain ⟨dso, found, maps, object, path, recorded⟩ := recorded_of_recordMap
      accountedMiddle.interned live (visited.sound.linked th thread live) ran
    exact accountedMiddle.recorded recorded

theorem Plain.step_accounted {call : Call} {machine next : Plain} {reply : Reply}
    (sound : Sound none machine) (accounted : machine.store.Accounted)
    (stepped : Plain.step call machine = .ok (reply, next)) : next.store.Accounted :=
  step_keeps sound (fun _ _ _ _ _ _ _ _ before _ visited => visited.accounted before) accounted
    stepped

/-- Every state that a run reaches is accounted for. -/
theorem Machine.accounted_of_run {calls : List Call} {replies : List Reply} {machine : Machine}
    (ran : runAll Machine.step calls Machine.new = .ok (replies, machine)) :
    ∃ plain, Matches machine plain ∧ plain.store.Accounted :=
  runs_keep matches_new accounted_empty
    (fun _ _ _ _ sound accounted stepped => Plain.step_accounted sound accounted stepped) ran

/-- There are fewer than `2 ^ 32` references to any maps object and to any dso. -/
structure Store.Few (store : Store) : Prop where
  maps : ∀ ref object, store.maps.get? ref = some object → Plain.sharers store ref < 2 ^ 32
  dsos : ∀ ref dso, store.dsos.get? ref = some dso →
    1 + (store.mapObjs.count fun map => map.dso = ref) < 2 ^ 32

/-- The counters are the numbers of references, and every pointer leads to an
object. -/
structure Store.References (store : Store) : Prop where
  maps : ∀ ref object, store.maps.get? ref = some object →
    object.refcnt.toNat = (store.threads.count fun thread => thread.maps = some ref) ∧
      1 ≤ object.refcnt.toNat
  map : ∀ maps object, store.maps.get? maps = some object → ∀ ref ∈ object.entries.toList,
    (∃ map, store.mapObjs.get? ref = some map ∧ map.refcnt = 1) ∧
      object.entries.toList.count ref = 1 ∧
      ∀ other object', store.maps.get? other = some object' → ref ∈ object'.entries.toList →
        other = maps
  dso : ∀ ref dso, store.dsos.get? ref = some dso →
    dso.refcnt.toNat = 1 + (store.mapObjs.count fun map => map.dso = ref) ∧
      store.dsosHead.count ref = 1
  liveMaps : ∀ th thread maps, store.threads.get? th = some thread → thread.maps = some maps →
    ∃ object, store.maps.get? maps = some object
  liveMap : ∀ maps object, store.maps.get? maps = some object →
    ∀ ref, ref ∈ object.entries.toList ∨ ref ∈ object.head →
    ∃ map, store.mapObjs.get? ref = some map
  liveDso : ∀ ref map, store.mapObjs.get? ref = some map →
    ∃ dso, store.dsos.get? map.dso = some dso
  liveListed : ∀ ref, ref ∈ store.dsosHead ∨ ref ∈ store.dsosRoot.toList →
    ∃ dso, store.dsos.get? ref = some dso

/-- The counters are exact where no more objects were made than the counters can tell
apart. -/
theorem Store.Accounted.references {table : Table} {store : Store} (accounted : store.Accounted)
    (sound : Plain.Sound none ⟨store, table⟩) (few : store.Few) : store.References where
  maps := by
    intro ref object stored
    have count : object.refcnt.toNat = Plain.sharers store ref := by
      rw [sound.counted ref object stored, BitVec.toNat_ofNat,
        Nat.mod_eq_of_lt (few.maps ref object stored)]
    refine ⟨count, ?_⟩
    rw [count]
    exact sound.shared ref object stored
  map := by
    intro maps object stored ref member
    obtain ⟨map, live, listed⟩ := accounted.entries maps object stored ref member
    refine ⟨⟨map, live, (accounted.owned ref map live).1⟩,
      List.count_eq_one_of_mem (accounted.nodup maps object stored) member, ?_⟩
    intro other object' stored' member'
    obtain ⟨map', live', listed'⟩ := accounted.entries other object' stored' ref member'
    cases live.symm.trans live'
    exact Ref.ext (Option.some.inj (listed'.symm.trans listed))
  dso := by
    intro ref dso live
    refine ⟨?_, ?_⟩
    · rw [accounted.counted ref dso live, BitVec.toNat_ofNat,
        Nat.mod_eq_of_lt (few.dsos ref dso live)]
    · rw [accounted.listed.count_eq]
      exact List.count_eq_one_of_mem accounted.interned.nodup (accounted.rooted ref dso live)
  liveMaps := sound.live
  liveMap := by
    intro maps object stored ref member
    rw [(accounted.head maps object stored).mem_iff, or_self] at member
    obtain ⟨map, live, -⟩ := accounted.entries maps object stored ref member
    exact ⟨map, live⟩
  liveDso := accounted.named
  liveListed := by
    intro ref member
    rw [accounted.listed.mem_iff, or_self] at member
    exact accounted.interned.live ref member

/-- In every state that a run reaches without more than `2 ^ 32` references to one
object, the counters are the numbers of references. -/
theorem runs_account {calls : List Call} {replies : List Reply} {machine : Machine}
    (ran : runAll Machine.step calls Machine.new = .ok (replies, machine))
    (few : machine.store.Few) : machine.store.References := by
  obtain ⟨plain, matched, accounted⟩ := Machine.accounted_of_run ran
  rw [matched.1.store] at few ⊢
  exact accounted.references matched.2 few

/-- A store that has allocated few threads and maps has few references. -/
theorem Store.few_of_next {store : Store} (threads : store.threads.next < 2 ^ 32)
    (mapObjs : 1 + store.mapObjs.next < 2 ^ 32) : store.Few where
  maps := fun _ _ _ => Nat.lt_of_le_of_lt (Heap.count_le_next _) threads
  dsos := fun _ _ _ =>
    Nat.lt_of_le_of_lt (Nat.add_le_add_left (Heap.count_le_next _) 1) mapObjs

theorem runs_account_sample :
    ∃ replies machine, runAll Machine.step [.mapLs 1 1, .sample 1 2] Machine.new =
        .ok (replies, machine) ∧ machine.store.Few ∧ machine.store.References := by
  have run : ∃ replies machine, runAll Machine.step [.mapLs 1 1, .sample 1 2] Machine.new =
      .ok (replies, machine) ∧ machine.store.threads.next < 2 ^ 32 ∧
        1 + machine.store.mapObjs.next < 2 ^ 32 := by
    refine ⟨_, _, rfl, ?_, ?_⟩
    · decide
    · decide
  obtain ⟨replies, machine, ran, threads, mapObjs⟩ := run
  have few := Store.few_of_next threads mapObjs
  exact ⟨replies, machine, ran, few, runs_account ran few⟩

end DwBpf
