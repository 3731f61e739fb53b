import DwBpf.Event.Purging

/-! # Deleting a machine whose counters are exact

In a state in which every thread has the reference of its table only, and no counter
has wrapped around, `machine__delete` takes the threads apart one after the other, and
the machine stays in order (`DwBpf.Teardown.Intact`): a maps object is destroyed with
its last thread and takes its maps along. The assertion of `thread__delete` holds as
`list_del_init` has left the word that the list shares with the tree pointing to the
thread itself.
-/

namespace DwBpf

namespace Teardown

open Machine (bucket)

/-- A machine that is being deleted without a fault so far. -/
structure Intact (state : Teardown) : Prop where
  tallied : state.store.Tallied
  positive : state.ledger.Positive
  single : ∀ th thread, state.store.threads.get? th = some thread → thread.refcnt = 1
  mapped : ∀ th thread, state.store.threads.get? th = some thread →
    ∃ maps object, thread.maps = some maps ∧ state.store.maps.get? maps = some object
  shared : ∀ maps object, state.store.maps.get? maps = some object →
    object.refcnt.toNat = Plain.sharers state.store maps ∧ 0 < Plain.sharers state.store maps
  member : ∀ index th, th ∈ (state.machine.table index).entries.toList ↔
    ∃ thread, state.store.threads.get? th = some thread ∧ bucket thread.tid = index
  nodup : ∀ index, (state.machine.table index).entries.toList.Nodup
  nr : ∀ index, (state.machine.table index).nr =
    BitVec.ofNat 32 (state.machine.table index).entries.toList.length
  dead : ∀ index, state.store.dead index = []
  rings : ∀ index, state.links.Ring (.head index) []

variable {state next : Teardown} {th : Ref Thread} {thread : Thread} {index : Fin threadsTableSize}

section Rings

variable {links : Links DeadNode}

/-- `rb_erase` and `RB_CLEAR_NODE` leave the lists of dead threads alone. -/
theorem rings_erase (rb : RbErase) (rest : List (Ref Thread)) (th : Ref Thread)
    (ring : links.Ring (.head index) []) :
    ({ rb.words rest links with
      next := Function.update (rb.words rest links).next (.thread th) (.thread th) } :
        Links DeadNode).Ring (.head index) [] := by
  apply ring.congr
  · intro node member
    rw [List.mem_singleton.mp member]
    change Function.update (rb.words rest links).next (.thread th) (.thread th) (.head index) = _
    rw [Function.update_of_ne]
    · exact rb.next rest links _ fun _ _ => nofun
    · exact nofun
  · intro node member
    rw [List.mem_singleton.mp member]
    exact rb.prev rest links _ fun _ _ => nofun

/-- A thread that goes to a list of dead threads and is taken out of it leaves the lists
as they were. -/
theorem rings_pass (rings : ∀ index, links.Ring (.head index) []) (th : Ref Thread)
    (index other : Fin threadsTableSize) :
    ((links.addTail (.thread th) (.head index)).delInit (.thread th)).Ring (.head other) [] := by
  have fresh : DeadNode.thread th ∉ [DeadNode.head index] := by
    intro member
    cases List.mem_singleton.mp member
  have added := (rings index).addTail fresh
  by_cases same : other = index
  · subst same
    have deleted := added.delInit (List.mem_singleton_self _)
    rwa [List.nil_append, List.erase_cons_head] at deleted
  · have apart : ∀ node ∈ [DeadNode.head other], node ∉ [DeadNode.head index, .thread th] := by
      intro node member inside
      rw [List.mem_singleton.mp member] at inside
      rcases List.mem_cons.mp inside with isHead | isThread
      · exact same (DeadNode.head.inj isHead)
      · cases List.mem_singleton.mp isThread
    have stays : (links.addTail (.thread th) (.head index)).Ring (.head other) [] := by
      apply (rings index).addTail_other (rings other)
      intro node member
      refine ⟨?_, fun inside => apart node member (List.mem_cons.mpr (.inl ?_))⟩
      · rw [List.mem_singleton.mp member]
        exact nofun
      · exact List.mem_singleton.mp inside
    exact added.delInit_other (List.mem_singleton_self _) stays apart

end Rings

/-- A thread left the table and its list of dead threads, and gave up its last reference. -/
structure Detached (state : Teardown) (th : Ref Thread) (index : Fin threadsTableSize)
    (next : Teardown) : Prop where
  threads : next.store.threads = state.store.threads.modify th fun thread =>
    { thread with node := .clear, refcnt := thread.refcnt - 1 }
  maps : next.store.maps = state.store.maps
  mapObjs : next.store.mapObjs = state.store.mapObjs
  dsos : next.store.dsos = state.store.dsos
  dsosHead : next.store.dsosHead = state.store.dsosHead
  dsosRoot : next.store.dsosRoot = state.store.dsosRoot
  dead : ∀ other, next.store.dead other = []
  erased : (next.machine.table index).entries.toList =
    (state.machine.table index).entries.toList.erase th
  nr : (next.machine.table index).nr = (state.machine.table index).nr - 1
  others : ∀ other, other ≠ index → next.machine.table other = state.machine.table other
  rings : ∀ other, next.links.Ring (.head other) []
  events : next.events = state.events ++ [.put (.thread th) 1]

/-- The thread leaves the tree and goes to the list of the dead, the last reference goes
with it, and thereby it leaves that list too: the links are those of an empty list again
when its maps are put and its memory is freed. -/
theorem removeThread_detaches (rb : RbErase) (intact : state.Intact)
    (live : state.store.threads.get? th = some thread) :
    ∃ middle, state.Detached th (bucket thread.tid) middle ∧
      removeThread rb state th = (do
        let next ← mapsPut middle thread.maps
        return (next.withStore { next.store with threads := next.store.threads.free th }).log
          (.free (.thread th))) := by
  let index := bucket thread.tid
  let forgotten : Machine := state.machine.modifyBucket index fun threads =>
    if threads.lastMatch = some th then { threads with lastMatch := none } else threads
  let erased := rbErase rb { state with machine := forgotten } th index
  let listed := erased.listAddTail th index
  let put := (listed.withStore (listed.store.modifyThread th fun thread =>
    { thread with refcnt := thread.refcnt - 1 })).log (.put (.thread th) thread.refcnt)
  have one := intact.single th thread live
  have sameEntries : (forgotten.table index).entries = (state.machine.table index).entries := by
    rw [Machine.modifyBucket_self]
    split
    · rfl
    · rfl
  have sameNr : (forgotten.table index).nr = (state.machine.table index).nr := by
    rw [Machine.modifyBucket_self]
    split
    · rfl
    · rfl
  have shrunk : (put.listDelInit th index).machine.table index =
      { forgotten.table index with
        entries := Tree.ofList ((forgotten.table index).entries.toList.erase th)
        nr := (forgotten.table index).nr - 1 } := Function.update_self ..
  have detached : state.Detached th index (put.listDelInit th index) := by
    refine ⟨?_, rfl, rfl, rfl, rfl, rfl, ?_, ?_, ?_, ?_, ?_, ?_⟩
    · change (((state.store.threads.modify th _).modify th _).modify th _).modify th _ = _
      rw [Heap.modify_modify, Heap.modify_modify, Heap.modify_modify]
      rfl
    · intro other
      have empty : state.store.dead = fun _ => [] := funext intact.dead
      change Function.update (Function.update state.store.dead index _) index _ other = []
      by_cases same : other = index
      · rw [same, Function.update_self]
        change (Function.update state.store.dead index (state.store.dead index ++ [th]) index).erase
          th = []
        rw [Function.update_self, empty, List.nil_append, List.erase_cons_head]
      · rw [Function.update_of_ne same, Function.update_of_ne same, empty]
    · rw [shrunk, Tree.toList_ofList, sameEntries]
    · rw [shrunk, sameNr]
    · intro other different
      exact (Function.update_of_ne different ..).trans (Function.update_of_ne different ..)
    · intro other
      apply rings_pass
      intro other
      exact rings_erase rb _ th (intact.rings other)
    · change state.events ++ [.put (.thread th) thread.refcnt] = _
      rw [one]
  have waits : listed.store.threads.get? th = some { thread with node := .dead index } := by
    change ((state.store.threads.modify th _).modify th _).get? th = _
    rw [Heap.modify_modify, Heap.get?_modify_self, live]
    rfl
  have dying : (put.listDelInit th index).store.threads.get? th =
      some { thread with node := .clear, refcnt := thread.refcnt - 1 } := by
    rw [detached.threads, Heap.get?_modify_self, live]
    rfl
  have clear : (put.listDelInit th index).links.next (.thread th) = .thread th :=
    Links.next_delInit ..
  refine ⟨put.listDelInit th index, detached, ?_⟩
  have removed : removeThread rb state th = threadPut listed th := by
    rw [removeThread, deref_of_get? live, ok_bind, if_neg]
    · rw [one]
      decide
  have last : thread.refcnt - 1 = 0 := by
    rw [one]
    rfl
  have putLast : threadPut listed th = threadDelete (put.listDelInit th index) th := by
    simp only [threadPut, deref_of_get? waits, ok_bind, last, ↓reduceIte]
    rfl
  rw [removed, putLast, threadDelete, deref_of_get? dying, ok_bind, if_neg (not_not.mpr clear)]

/-- The thread and its entry in the table are gone. -/
structure Removed (state : Teardown) (th : Ref Thread) (index : Fin threadsTableSize)
    (next : Teardown) : Prop where
  threads : next.store.threads = state.store.threads.free th
  dsosHead : next.store.dsosHead = state.store.dsosHead
  erased : (next.machine.table index).entries.toList =
    (state.machine.table index).entries.toList.erase th
  nr : (next.machine.table index).nr = (state.machine.table index).nr - 1
  others : ∀ other, other ≠ index → next.machine.table other = state.machine.table other

section Removed

variable {maps : Ref Maps} {object : Maps}

theorem Removed.alive (removed : state.Removed th index next) {other : Ref Thread}
    {found : Thread} :
    next.store.threads.get? other = some found ↔
      other ≠ th ∧ state.store.threads.get? other = some found := by
  rw [removed.threads, Heap.get?_free_eq_some]

theorem Removed.sharers_eq (removed : state.Removed th index next)
    (live : state.store.threads.get? th = some thread) (query : Ref Maps) :
    Plain.sharers next.store query + (if thread.maps = some query then 1 else 0) =
      Plain.sharers state.store query := by
  rw [Plain.sharers, removed.threads]
  exact Heap.count_free live

/-- A bucket has the threads that are left, at their places. -/
theorem Removed.member (removed : state.Removed th (bucket thread.tid) next) (intact : state.Intact)
    (live : state.store.threads.get? th = some thread) (index : Fin threadsTableSize)
    (other : Ref Thread) :
    other ∈ (next.machine.table index).entries.toList ↔
      ∃ found, next.store.threads.get? other = some found ∧ bucket found.tid = index := by
  by_cases same : index = bucket thread.tid
  · rw [same, removed.erased, (intact.nodup _).mem_erase_iff, intact.member]
    constructor
    · rintro ⟨different, found, isLive, isIndex⟩
      exact ⟨found, removed.alive.mpr ⟨different, isLive⟩, isIndex⟩
    · rintro ⟨found, isLive, isIndex⟩
      obtain ⟨different, wasLive⟩ := removed.alive.mp isLive
      exact ⟨different, found, wasLive, isIndex⟩
  · rw [removed.others index same, intact.member]
    constructor
    · rintro ⟨found, isLive, isIndex⟩
      refine ⟨found, removed.alive.mpr ⟨?_, isLive⟩, isIndex⟩
      rintro rfl
      cases live.symm.trans isLive
      exact same isIndex.symm
    · rintro ⟨found, isLive, isIndex⟩
      exact ⟨found, (removed.alive.mp isLive).2, isIndex⟩

theorem Removed.nr_eq (removed : state.Removed th (bucket thread.tid) next) (intact : state.Intact)
    (live : state.store.threads.get? th = some thread) (index : Fin threadsTableSize) :
    (next.machine.table index).nr =
      BitVec.ofNat 32 (next.machine.table index).entries.toList.length := by
  by_cases same : index = bucket thread.tid
  · have member := (intact.member (bucket thread.tid) th).mpr ⟨thread, live, rfl⟩
    have positive := List.length_pos_of_mem member
    rw [same, removed.nr, removed.erased, intact.nr, List.length_erase_of_mem member]
    exact BitVec.ofNat_sub_ofNat_of_le _ 1 (by decide) positive
  · rw [removed.others index same, intact.nr]

theorem Removed.nodup (removed : state.Removed th (bucket thread.tid) next) (intact : state.Intact)
    (index : Fin threadsTableSize) : (next.machine.table index).entries.toList.Nodup := by
  by_cases same : index = bucket thread.tid
  · rw [same, removed.erased]
    exact (intact.nodup _).erase th
  · rw [removed.others index same]
    exact intact.nodup index

/-- The maps object that a thread drops is counted once less. -/
theorem Intact.lower (intact : state.Intact) (stored : state.store.maps.get? maps = some object) :
    object.refcnt ≠ 0 ∧ (object.refcnt - 1).toNat = Plain.sharers state.store maps - 1 := by
  obtain ⟨counted, sharing⟩ := intact.shared maps object stored
  have nonzero : object.refcnt ≠ 0 := by
    intro zero
    rw [zero] at counted
    exact sharing.ne counted
  refine ⟨nonzero, ?_⟩
  rw [RefLedger.toNat_sub_one nonzero, counted]

section Dropped

variable (removed : state.Removed th index next) (intact : state.Intact)
  (live : state.store.threads.get? th = some thread) (has : thread.maps = some maps)
  (stored : state.store.maps.get? maps = some object)
  (others : ∀ query, query ≠ maps → next.store.maps.get? query = state.store.maps.get? query)
  (own : (next.store.maps.get? maps).map Maps.refcnt =
    if object.refcnt - 1 = 0 then none else some (object.refcnt - 1))

include removed intact live has stored others own

/-- The threads that are left have their maps: where another one shares those of the thread,
the counter does not drop to zero. -/
theorem Removed.mapped {other : Ref Thread} {found : Thread}
    (isLive : next.store.threads.get? other = some found) :
    ∃ query after, found.maps = some query ∧ next.store.maps.get? query = some after := by
  obtain ⟨-, wasLive⟩ := removed.alive.mp isLive
  obtain ⟨query, before, shares, wasStored⟩ := intact.mapped other found wasLive
  by_cases same : query = maps
  · subst same
    have more : 0 < Plain.sharers next.store query := Heap.count_pos isLive shares
    have fewer := removed.sharers_eq live query
    rw [if_pos has] at fewer
    obtain ⟨-, lower⟩ := intact.lower stored
    have notLast : object.refcnt - 1 ≠ 0 := by
      intro zero
      rw [zero] at lower
      change 0 = _ at lower
      omega
    rw [if_neg notLast] at own
    obtain ⟨after, isAfter, -⟩ := Option.map_eq_some_iff.mp own
    exact ⟨query, after, shares, isAfter⟩
  · exact ⟨query, before, shares, (others query same).trans wasStored⟩

/-- The counters of the maps objects that are left are exact. -/
theorem Removed.shared {query : Ref Maps} {after : Maps}
    (isStored : next.store.maps.get? query = some after) :
    after.refcnt.toNat = Plain.sharers next.store query ∧
      0 < Plain.sharers next.store query := by
  have fewer := removed.sharers_eq live query
  by_cases same : query = maps
  · subst same
    obtain ⟨-, lower⟩ := intact.lower stored
    rw [isStored] at own
    split at own
    · cases own
    · rename_i notLast
      rw [Option.map_some, Option.some.injEq] at own
      rw [if_pos has] at fewer
      rw [own, lower]
      have : (object.refcnt - 1).toNat ≠ 0 := fun zero => notLast (BitVec.eq_of_toNat_eq zero)
      omega
  · have was : state.store.maps.get? query = some after :=
      (others query same).symm.trans isStored
    rw [if_neg (by rw [has, Option.some.injEq]; exact Ne.symm same)] at fewer
    obtain ⟨count, sharing⟩ := intact.shared query after was
    omega

end Dropped

theorem Detached.positive (detached : state.Detached th index next) (intact : state.Intact) :
    next.ledger.Positive := by
  intro object count member
  change _ ∈ next.events at member
  rw [detached.events] at member
  rcases List.mem_append.mp member with earlier | added
  · exact intact.positive object count earlier
  · injection List.mem_singleton.mp added with _ isOne
    rw [isOne]
    decide

/-- A detached thread that dropped its maps is freed. -/
theorem Detached.removed {middle left : Teardown} (detached : state.Detached th index middle)
    (dropped : middle.Dropped maps object left) :
    state.Removed th index (left.after { left.store with threads := left.store.threads.free th }
      [.free (.thread th)]) where
  threads := by
    change left.store.threads.free th = _
    rw [dropped.aside.threads, detached.threads, Heap.free_modify]
  dsosHead := dropped.aside.dsosHead.trans detached.dsosHead
  erased := by
    change (left.machine.table _).entries.toList = _
    rw [dropped.aside.table, detached.erased]
  nr := by
    change (left.machine.table _).nr = _
    rw [dropped.aside.table, detached.nr]
  others := by
    intro other different
    change left.machine.table other = _
    rw [dropped.aside.table, detached.others other different]

end Removed

/-- `__machine__remove_thread` destroys the thread. -/
theorem removeThread_intact (rb : RbErase) (intact : state.Intact)
    (live : state.store.threads.get? th = some thread) :
    ∃ next, removeThread rb state th = .ok next ∧ next.Intact ∧
      state.Removed th (bucket thread.tid) next := by
  obtain ⟨maps, object, has, stored⟩ := intact.mapped th thread live
  obtain ⟨nonzero, -⟩ := intact.lower stored
  obtain ⟨middle, detached, runs⟩ := removeThread_detaches rb intact live
  have tallied : middle.store.Tallied := intact.tallied.regroups (Store.regroups_of_eq detached.maps
    detached.mapObjs detached.dsos detached.dsosHead detached.dsosRoot)
  obtain ⟨left, put, dropped⟩ :=
    mapsPut_drops tallied (detached.positive intact) (detached.maps ▸ stored) nonzero
  have others : ∀ query, query ≠ maps →
      left.store.maps.get? query = state.store.maps.get? query := by
    intro query different
    rw [dropped.others query different, detached.maps]
  have removed := detached.removed dropped
  refine ⟨_, ?_, ?_, removed⟩
  · rw [runs, has, put]
    rfl
  · refine ⟨dropped.tallied.regroups (Store.regroups_of_eq rfl rfl rfl rfl rfl),
      positive_after dropped.positive (by simp), ?_, ?_, ?_, removed.member intact live,
      removed.nodup intact, removed.nr_eq intact live, ?_, ?_⟩
    · intro other found isLive
      exact intact.single other found (removed.alive.mp isLive).2
    · intro other found isLive
      exact removed.mapped intact live has stored others dropped.own isLive
    · intro query after isStored
      exact removed.shared intact live has stored others dropped.own isStored
    · intro other
      change left.store.dead other = []
      rw [dropped.aside.dead, detached.dead]
    · intro other
      change left.links.Ring _ _
      rw [dropped.aside.links]
      exact detached.rings other

/-- The walk over a bucket destroys its threads. The induction is on the threads left. -/
theorem deleteEntries_intact (rb : RbErase) {left : List (Ref Thread)}
    (index : Fin threadsTableSize)
    (intact : state.Intact)
    (entries : (state.machine.table index).entries.toList = left) :
    ∃ next, deleteEntries rb left state = .ok next ∧ next.Intact ∧
      next.store.dsosHead = state.store.dsosHead ∧ (next.machine.table index).entries.toList = [] ∧
      ∀ other, other ≠ index → next.machine.table other = state.machine.table other := by
  induction left generalizing state with
  | nil => exact ⟨state, rfl, intact, rfl, entries, fun _ _ => rfl⟩
  | cons th rest ih =>
      have member : th ∈ (state.machine.table index).entries.toList := by
        rw [entries]
        exact List.mem_cons_self ..
      obtain ⟨thread, live, rfl⟩ := (intact.member index th).mp member
      obtain ⟨middle, removes, middleIntact, removed⟩ := removeThread_intact rb intact live
      have remaining : (middle.machine.table (bucket thread.tid)).entries.toList = rest := by
        rw [removed.erased, entries, List.erase_cons_head]
      obtain ⟨next, deletes, nextIntact, dsosHead, empty, others⟩ := ih middleIntact remaining
      refine ⟨next, ?_, nextIntact, dsosHead.trans removed.dsosHead, empty, ?_⟩
      · rw [deleteEntries, removes, ok_bind]
        exact deletes
      · intro other different
        rw [others other different, removed.others other different]

/-- The buckets that were passed, and those that were empty, are empty. -/
theorem deleteThreads_intact (rb : RbErase) (buckets : List (Fin threadsTableSize))
    (intact : state.Intact) :
    ∃ next, deleteThreads rb buckets state = .ok next ∧ next.Intact ∧
      next.store.dsosHead = state.store.dsosHead ∧ ∀ index,
        index ∈ buckets ∨ (state.machine.table index).entries.toList = [] →
        (next.machine.table index).entries.toList = [] := by
  induction buckets generalizing state with
  | nil =>
      refine ⟨state, rfl, intact, rfl, ?_⟩
      intro index passed
      exact passed.resolve_left List.not_mem_nil
  | cons bucket rest ih =>
      obtain ⟨middle, deletes, middleIntact, middleHead, empty, others⟩ :=
        deleteEntries_intact rb bucket intact rfl
      obtain ⟨next, deletesRest, nextIntact, nextHead, emptied⟩ := ih middleIntact
      refine ⟨next, ?_, nextIntact, nextHead.trans middleHead, ?_⟩
      · rw [deleteThreads, deletes, ok_bind]
        exact deletesRest
      · intro index passed
        apply emptied
        by_cases same : index = bucket
        · rw [same]
          exact .inr empty
        · rw [others index same]
          exact passed.imp_left fun member => (List.mem_cons.mp member).resolve_left same

/-- The dsos of the list were put. -/
structure Drained (state : Teardown) (dsos : List (Ref Dso)) (next : Teardown) : Prop where
  table : next.machine.table = state.machine.table
  links : next.links = state.links
  dead : next.store.dead = state.store.dead
  threads : next.store.threads = state.store.threads
  maps : next.store.maps = state.store.maps
  mapObjs : next.store.mapObjs = state.store.mapObjs
  positive : next.ledger.Positive
  others : ∀ ref, ref ∉ dsos → next.store.dsos.get? ref = state.store.dsos.get? ref
  put : ∀ ref, ref ∈ dsos → next.store.count? (.dso ref) = some 0

/-- `dsos__purge`, when the list has the last references. -/
theorem dsosPurge_drains {left : List (Ref Dso)} (positive : state.ledger.Positive)
    (nodup : left.Nodup) (ones : ∀ ref ∈ left, state.store.count? (.dso ref) = some 1) :
    ∃ next, dsosPurge left state = .ok next ∧ state.Drained left next := by
  induction left generalizing state with
  | nil =>
      exact ⟨state, rfl, rfl, rfl, rfl, rfl, rfl, rfl, positive, fun _ _ => rfl,
        fun _ member => nomatch member⟩
  | cons pos rest ih =>
      obtain ⟨absent, restNodup⟩ := List.nodup_cons.mp nodup
      obtain ⟨dso, live, one⟩ := Option.map_eq_some_iff.mp (ones pos (List.mem_cons_self ..))
      let store := { state.store with dsosHead := state.store.dsosHead.erase pos }
      let middle :=
        state.after (store.modifyDso pos fun dso => { dso with refcnt := dso.refcnt - 1 })
        [.put (.dso pos) dso.refcnt]
      have put : dsoPut (state.withStore store) pos = .ok middle := by
        rw [dsoPut, show deref (state.withStore store).store.dsos pos = _ from deref_of_get? live]
        rfl
      have counts :
        middle.store.count? = Function.update state.store.count? (.dso pos) (some 0) := by
        refine (@Store.count?_modifyDso store pos dso live _).trans ?_
        rw [one]
        rfl
      have positiveMiddle : middle.ledger.Positive := by
        apply positive_after positive
        intro object count member
        injection List.mem_singleton.mp member with _ isOne
        rw [isOne, one]
        decide
      obtain ⟨next, purges, drained⟩ := ih positiveMiddle restNodup (by
        intro ref member
        rw [counts, Function.update_of_ne]
        · exact ones ref (List.mem_cons_of_mem pos member)
        · intro same
          rw [Object.dso.inj same] at member
          exact absent member)
      refine ⟨next, ?_, drained.table, drained.links, drained.dead, drained.threads, drained.maps,
        drained.mapObjs, drained.positive, ?_, ?_⟩
      · rw [dsosPurge, put, ok_bind]
        exact purges
      · intro ref notIn
        obtain ⟨notPos, notRest⟩ := not_or.mp (mt List.mem_cons.mpr notIn)
        rw [drained.others ref notRest]
        exact Heap.get?_modify_of_ne _ notPos
      · intro ref member
        by_cases inRest : ref ∈ rest
        · exact drained.put ref inRest
        · have isPos := (List.mem_cons.mp member).resolve_right inRest
          refine (congrArg (Option.map Dso.refcnt) (drained.others ref inRest)).trans ?_
          change middle.store.count? (.dso ref) = _
          rw [counts, isPos, Function.update_self]

/-- What becomes of an object: the counter of a dso is zero, and others were destroyed. -/
def Ended (last : Teardown) : Object → Prop
  | .dso ref => last.store.count? (.dso ref) = some 0
  | object => last.store.count? object = none ∧ RefEvent.Released last.events object

/-- Every object of the machine has come to its end, no counter was decremented that was
zero already, and the buckets are empty. -/
structure Releases (machine : Machine) (last : Teardown) : Prop where
  ended : ∀ object count, machine.store.count? object = some count → last.Ended object
  positive : last.ledger.Positive
  entries : ∀ index, (last.machine.table index).entries.toList = []
  nr : ∀ index, (last.machine.table index).nr = 0
  dead : ∀ index, last.store.dead index = []
  rings : ∀ index, last.links.Ring (.head index) []

/-- Once the buckets are empty, no thread, no maps object and no map is left. -/
theorem Intact.bare (intact : state.Intact)
    (empty : ∀ index, (state.machine.table index).entries.toList = []) :
    (∀ th, state.store.threads.get? th = none) ∧ (∀ ref, state.store.maps.get? ref = none) ∧
      ∀ ref, state.store.mapObjs.get? ref = none := by
  have threads : ∀ th, state.store.threads.get? th = none := by
    intro th
    rw [Option.eq_none_iff_forall_ne_some]
    intro thread live
    have member := (intact.member (bucket thread.tid) th).mpr ⟨thread, live, rfl⟩
    rw [empty] at member
    cases member
  have maps : ∀ ref, state.store.maps.get? ref = none := by
    intro ref
    rw [Option.eq_none_iff_forall_ne_some]
    intro object stored
    obtain ⟨-, sharing⟩ := intact.shared ref object stored
    have none : Plain.sharers state.store ref = 0 := by
      apply Heap.count_eq_zero.mpr
      intro th thread live
      cases (threads th).symm.trans live
    omega
  refine ⟨threads, maps, ?_⟩
  intro ref
  rw [Option.eq_none_iff_forall_ne_some]
  intro map live
  obtain ⟨-, owner, object, stored, -⟩ := intact.tallied.owned ref map live
  cases (maps owner).symm.trans stored

/-- From a machine in which every thread is held by the table alone, the walk over all
buckets and then over all dsos brings every object to its end. -/
theorem machineDelete_releases (rb : RbErase) {machine : Machine} {links : Links DeadNode}
    (intact : (start machine links).Intact) :
    ∃ last, machineDelete rb (start machine links) = .ok last ∧ Releases machine last := by
  obtain ⟨middle, deletes, middleIntact, dsosHead, passed⟩ :=
    deleteThreads_intact rb (List.finRange threadsTableSize) intact
  have empty : ∀ index, (middle.machine.table index).entries.toList = [] :=
    fun index => passed index (.inl (List.mem_finRange index))
  obtain ⟨threads, maps, mapObjs⟩ := middleIntact.bare empty
  have ones : ∀ ref ∈ middle.store.dsosHead, middle.store.count? (.dso ref) = some 1 := by
    intro ref member
    obtain ⟨dso, live⟩ := (middleIntact.tallied.dsos ref).mp member
    have counted := middleIntact.tallied.counted ref dso live
    have unmapped : (middle.store.mapObjs.count fun map => map.dso = ref) = 0 := by
      apply Heap.count_eq_zero.mpr
      intro map object isLive
      cases (mapObjs map).symm.trans isLive
    rw [unmapped] at counted
    exact (congrArg (Option.map _) live).trans (congrArg some (BitVec.eq_of_toNat_eq counted))
  obtain ⟨last, purges, drained⟩ := dsosPurge_drains middleIntact.positive
    middleIntact.tallied.listed ones
  have ran : machineDelete rb (start machine links) = .ok last := by
    rw [machineDelete, deletes, ok_bind]
    exact purges
  have run := machineDelete_run ran
  refine ⟨last, ran, ?_, drained.positive, ?_, ?_, ?_, ?_⟩
  · intro object count live
    cases object with
    | thread ref =>
        have gone : last.store.count? (.thread ref) = none := by
          change (last.store.threads.get? ref).map _ = _
          rw [drained.threads, threads]
          rfl
        exact ⟨gone, run.released live gone⟩
    | maps ref =>
        have gone : last.store.count? (.maps ref) = none := by
          change (last.store.maps.get? ref).map _ = _
          rw [drained.maps, maps]
          rfl
        exact ⟨gone, run.released live gone⟩
    | map ref =>
        have gone : last.store.count? (.map ref) = none := by
          change (last.store.mapObjs.get? ref).map _ = _
          rw [drained.mapObjs, mapObjs]
          rfl
        exact ⟨gone, run.released live gone⟩
    | dso ref =>
        apply drained.put
        rw [dsosHead]
        obtain ⟨dso, isLive, -⟩ := Option.map_eq_some_iff.mp live
        exact (intact.tallied.dsos ref).mpr ⟨dso, isLive⟩
  · intro index
    rw [drained.table, empty]
  · intro index
    rw [drained.table, middleIntact.nr, empty]
    rfl
  · intro index
    rw [drained.dead, middleIntact.dead]
  · intro index
    rw [drained.links]
    exact middleIntact.rings index

end Teardown

end DwBpf
