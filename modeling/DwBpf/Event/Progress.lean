import DwBpf.Event.Conservation

/-! # Recording a map over and over

Nothing keeps a process from reporting the same map again: recording it returns, and
adds another map of the same dso. Runs of such calls are as long as one likes
(`DwBpf.Machine.repeats`).
-/

namespace DwBpf

section Returns

variable {store : Store} {th : Ref Thread} {thread : Thread} {maps : Ref Maps} {object : Maps}

/-- A dso is found or added, whatever the name. -/
theorem Dsos.findnew_returns (interned : store.Interned) (name : List Char) :
    ∃ dso found, Dsos.findnew store name = .ok (dso, found) := by
  unfold Dsos.findnew Dsos.find Dso.findlinkByLongname
  cases located : store.dsosRoot.locate (Dso.steer store none name) [] with
  | inl this =>
      obtain ⟨member, -⟩ := Tree.locate_inl located
      obtain ⟨dso, live⟩ := interned.live this member
      simp only [deref_of_get? live, ok_bind, pure_eq_ok, Bool.false_eq_true, ↓reduceIte, true_or,
        Dso.get]
      exact ⟨_, _, rfl⟩
  | inr path =>
      simp only [ok_bind, pure_eq_ok, Bool.false_eq_true, ↓reduceIte,
        Dsos.addnew_of_fell interned located, Dso.get, deref, Heap.get?_alloc_nextRef]
      exact ⟨_, _, rfl⟩

theorem Map.new_returns (interned : store.Interned) (event : MmapEvent) :
    ∃ map next, Map.new store event = .ok (map, next) := by
  obtain ⟨dso, found, find⟩ := Dsos.findnew_returns interned event.filename
  obtain ⟨object, live, -⟩ := (Dsos.found_of_findnew interned find).live
  have stays : (found.dsos.modify dso fun object =>
      { object with refcnt := object.refcnt + 1 }).get? dso =
      some { object with refcnt := object.refcnt + 1 } := by
    simp [live]
  simp only [Map.new, find, ok_bind, Dso.get, Dso.put, deref_of_get? live, pure_eq_ok,
    Store.modifyDso, deref_of_get? stays]
  exact ⟨_, _, rfl⟩

/-- A thread after libunwind was asked for an address space for it, if it had none. -/
def Thread.ready (created : Bool) (thread : Thread) : Thread :=
  if thread.addrSpace then thread else { thread with ulops := true, addrSpace := created }

theorem Thread.ready_kept (created : Bool) (thread : Thread) :
    (thread.ready created).core = thread.core ∧
      (thread.ready created).refcnt = thread.refcnt := by
  unfold ready
  split
  · exact ⟨rfl, rfl⟩
  · exact ⟨rfl, rfl⟩

theorem Thread.ready_addrSpace (created : Bool) (thread : Thread) :
    (thread.ready created).addrSpace = (thread.addrSpace || created) := by
  unfold ready
  by_cases space : thread.addrSpace
  · rw [if_pos space, space, Bool.true_or]
  · rw [if_neg space, Bool.eq_false_iff.mpr space, Bool.false_or]

theorem Thread.ready_name (created : Bool) (thread : Thread) :
    (thread.ready created).name = thread.name := by
  unfold ready
  split
  · rfl
  · rfl

theorem Thread.ready_ulops {created : Bool} {thread : Thread}
    (operated : thread.addrSpace = true → thread.ulops = true) :
    (thread.ready created).ulops = true := by
  unfold ready
  by_cases space : thread.addrSpace
  · rw [if_pos space]
    exact operated space
  · rw [if_neg space]

/-- A thread is prepared once: later calls find its address space. -/
theorem Thread.prepareAccess_eq_ready (created : Bool)
    (live : store.threads.get? th = some thread) :
    Thread.prepareAccess store th created =
      .ok ((thread.ready created).addrSpace, store.modifyThread th (Thread.ready created)) := by
  have same : ∀ change, thread.ready created = change thread →
      store.threads.modify th (Thread.ready created) = store.threads.modify th change := by
    intro change agrees
    apply Heap.modify_congr
    intro object isLive
    cases live.symm.trans isLive
    exact agrees
  unfold Thread.prepareAccess Store.modifyThread
  rw [deref_of_get? live, ok_bind]
  by_cases space : thread.addrSpace
  · have self : thread.ready created = thread := if_pos space
    have kept : store.threads.modify th id = store.threads := Heap.modify_eq_self fun _ _ => rfl
    rw [if_pos space, self, space, same id self, kept]
    rfl
  · have set : thread.ready created = { thread with ulops := true, addrSpace := created } :=
      if_neg space
    rw [if_neg space, set, same (fun thread => { thread with ulops := true, addrSpace := created })
      set]
    rfl

/-- A map is inserted if all entries on the way are there. -/
theorem Maps.insert_returns {ref : Ref Map} {map : Map}
    (stored : store.maps.get? maps = some object)
    (live : store.mapObjs.get? ref = some map)
    (entries : ∀ other ∈ object.entries.toList, ∃ map, store.mapObjs.get? other = some map) :
    ∃ next, Maps.insert store maps ref = .ok next := by
  cases located : object.entries.locate (Maps.steerInsert store map.start) [] with
  | inl other =>
      obtain ⟨member, answer⟩ := Tree.locate_inl located
      obtain ⟨entry, entryLive⟩ := entries other member
      unfold Maps.steerInsert at answer
      rw [entryLive] at answer
      dsimp only at answer
      split at answer
      · cases answer
      · cases answer
  | inr path =>
      have linked : (store.mapObjs.modify ref fun map =>
          { map with listed := some maps.addr, linked := true }).get? ref =
          some { map with listed := some maps.addr, linked := true } := by
        simp [live]
      simp only [Maps.insert, deref_of_get? stored, ok_bind, deref_of_get? live, located, Map.get,
        Store.modifyMap, Store.modifyMaps, deref_of_get? linked, pure_eq_ok]
      exact ⟨_, rfl⟩

/-- Recording a map for a thread that gets an address space and has another reference
returns, and takes that reference. -/
theorem recordMap_runs {created : Bool} (accounted : store.Accounted) (event : MmapEvent)
    (live : store.threads.get? th = some thread) (linked : thread.node = .tree)
    (space : (thread.ready created).addrSpace = true) (more : thread.refcnt - 1 ≠ 0)
    (has : thread.maps = some maps) (stored : store.maps.get? maps = some object) :
    ∃ next, recordMap event created store th = .ok ((), next) ∧ next.threads.get? th =
      some { thread.ready created with refcnt := (thread.ready created).refcnt - 1 } := by
  obtain ⟨map, mapped, new⟩ := Map.new_returns accounted.interned event
  obtain ⟨dso, found, isFound, rfl, rfl⟩ := Map.new_of_found accounted.interned new
  obtain ⟨sameThreads, sameMaps, sameMapObjs⟩ := isFound.same
  rw [← sameThreads] at live
  have prepare := @Thread.prepareAccess_eq_ready
    { found with mapObjs := found.mapObjs.alloc (Map.init event dso) } th thread created live
  rw [space] at prepare
  obtain ⟨core, counted⟩ := Thread.ready_kept created thread
  simp only [Thread.core, Prod.mk.injEq] at core
  let ready : Store := Store.modifyThread
    { found with mapObjs := found.mapObjs.alloc (Map.init event dso) } th (Thread.ready created)
  have prepared : ready.threads.get? th = some (thread.ready created) := by
    rw [Store.modifyThread_threads, Heap.get?_modify_self, live, Option.map_some]
  have isNew : ready.mapObjs.get? found.mapObjs.nextRef = some (Map.init event dso) :=
    Heap.get?_alloc_nextRef _ _
  obtain ⟨entered, insert⟩ := @Maps.insert_returns ready maps object found.mapObjs.nextRef
    (Map.init event dso) (sameMaps ▸ stored) isNew (by
      intro other member
      obtain ⟨map, isLive, -⟩ := accounted.entries maps object stored other member
      rw [← sameMapObjs] at isLive
      exact ⟨map, Heap.get?_alloc_of_some _ isLive⟩)
  have inserted : Thread.insertMap { found with
      mapObjs := found.mapObjs.alloc (Map.init event dso) } th found.mapObjs.nextRef created =
      .ok (true, entered) := by
    have isLive : deref ready.threads th = .ok (thread.ready created) := deref_of_get? prepared
    simp only [Thread.insertMap, prepare, ok_bind, ↓reduceIte]
    change (deref ready.threads th >>= _) = _
    rw [isLive, ok_bind, core.2.2.1.trans has]
    dsimp only
    rw [show Maps.insert _ maps _ = _ from insert]
    rfl
  obtain ⟨-, stored', path, -, storedLive, -, isEntered⟩ := Maps.insert_eq insert
  cases isNew.symm.trans storedLive
  have enteredLive : entered.threads.get? th = some (thread.ready created) := by
    rw [isEntered]
    exact prepared
  have enteredMap : entered.mapObjs.get? found.mapObjs.nextRef =
      some { Map.init event dso with listed := some maps.addr, linked := true, refcnt := 2 } := by
    rw [isEntered]
    exact Heap.get?_modify_eq_some.mpr ⟨_, isNew, (if_pos rfl).symm⟩
  have putThread := Thread.put_of_linked enteredLive (core.2.2.2.trans linked)
  rw [counted, if_neg more] at putThread
  let released := entered.modifyThread th fun thread => { thread with refcnt := thread.refcnt - 1 }
  have putMap := @Map.put_of_two released found.mapObjs.nextRef _ enteredMap rfl
  refine ⟨released.modifyMap found.mapObjs.nextRef fun stored =>
    { stored with refcnt := stored.refcnt - 1 }, ?_, ?_⟩
  · simp only [recordMap, new, ok_bind, inserted, ↓reduceIte, putThread]
    rw [show Map.put _ found.mapObjs.nextRef = _ from putMap]
    rfl
  · change (entered.threads.modify th _).get? th = _
    rw [Heap.get?_modify_self, enteredLive]
    rfl

theorem recordMap_returns (accounted : store.Accounted) (event : MmapEvent)
    (live : store.threads.get? th = some thread) (linked : thread.node = .tree)
    (two : thread.refcnt = 2) (has : thread.maps = some maps)
    (stored : store.maps.get? maps = some object) :
    ∃ next, recordMap event true store th = .ok ((), next) := by
  have space : (thread.ready true).addrSpace = true := by
    rw [Thread.ready_addrSpace, Bool.or_true]
  obtain ⟨next, ran, -⟩ := recordMap_runs accounted event live linked space
    (by rw [two]; decide) has stored
  exact ⟨next, ran⟩

end Returns

/-- Dsos with the same name are the same. -/
theorem Store.Interned.eq_of_name {store : Store} {first second : Ref Dso}
    (interned : store.Interned) (firstMem : first ∈ store.dsosRoot.toList)
    (secondMem : second ∈ store.dsosRoot.toList)
    (same : Dso.name store first = Dso.name store second) : first = second := by
  have nodup : (store.dsosRoot.toList.map (Dso.name store)).Nodup :=
    List.pairwise_map.mpr (interned.sorted.imp ne_of_lt)
  exact List.inj_on_of_nodup_map nodup firstMem secondMem same

namespace Plain

variable {machine next : Plain} {name : List Char} {number : Nat}

/-- The machine has so many maps, all of the dso of one name. -/
structure Repeats (name : List Char) (number : Nat) (machine : Plain) : Prop where
  accounted : machine.store.Accounted
  single : machine.Single
  named : ∀ ref map, machine.store.mapObjs.get? ref = some map →
    ∃ dso, machine.store.dsos.get? map.dso = some dso ∧ dso.longName = name
  number : (machine.store.mapObjs.count fun _ => True) = number

theorem repeats_new (name : List Char) : Repeats name 0 Plain.new :=
  ⟨accounted_empty, nofun, nofun, rfl⟩

/-- A leader records the map once more. -/
theorem Repeats.record {event : MmapEvent} (repeats : Repeats event.filename number machine)
    (sound : Sound none machine) (leader : event.tid = event.tgid) :
    ∃ next, Visit.step findnewThread (.record event true) machine = .ok ((), next) ∧
      Repeats event.filename (number + 1) next := by
  have balanced : machine.store.Balanced event.tgid event.tid := fun other => absurd leader other
  rcases @withThread_cases machine Unit (recordMap event true) sound event.tgid event.tid with
    ⟨failure, outcome, -⟩ | ⟨th, middle, outcome, middleSound, home, goes⟩
  · cases outcome with
    | broken leaves _ | leavesWrapped leaves _ _ =>
        obtain ⟨thread, moves, -⟩ := leaves.moves
        exact absurd leader moves.member
    | entersWrapped enters _ => exact absurd leader enters.member
  · obtain ⟨th', same, held⟩ := outcome.held sound balanced repeats.single
    cases same
    obtain ⟨-, thread, live, -⟩ := home
    obtain ⟨maps, object, has, stored⟩ := middleSound.valid.mapped th thread live
    have accounted := repeats.accounted.regroups outcome.regroups
    have linked := middleSound.linked th thread live
    have two : thread.refcnt = 2 := (held th thread live).trans (if_pos rfl)
    obtain ⟨store, ran⟩ := recordMap_returns accounted event live linked two has stored
    obtain ⟨dso, found, maps, object, path, recorded⟩ := recorded_of_recordMap accounted.interned
      live linked ran
    refine ⟨⟨store, middle.table⟩, ?_, accounted.recorded recorded, held.recorded live recorded,
      ?_, ?_⟩
    · change withThread findnewThread machine event.tgid event.tid (recordMap event true) = _
      rw [goes, ran]
      rfl
    · intro ref map isLive
      change store.mapObjs.get? ref = some map at isLive
      rw [recorded.allocated] at isLive
      change ∃ dso, store.dsos.get? map.dso = some dso ∧ _
      rw [recorded.dsos]
      rcases Heap.get?_alloc_eq_some.mp isLive with ⟨-, rfl⟩ | wasLive
      · exact recorded.interned.live
      · rw [outcome.regroups.mapObjs] at wasLive
        obtain ⟨dso', dsoLive, isNamed⟩ := repeats.named ref map wasLive
        rw [← outcome.regroups.dsos] at dsoLive
        obtain ⟨after, afterLive, longName⟩ := recorded.interned.live_of_live dsoLive
        exact ⟨after, afterLive, longName.trans isNamed⟩
    · change (store.mapObjs.count fun _ => True) = _
      rw [recorded.allocated, Heap.count_alloc, outcome.regroups.mapObjs, repeats.number,
        if_pos trivial]

/-- Each further call for the same file takes one more reference to its dso. -/
theorem Repeats.step {call : Call} {event : MmapEvent}
    (repeats : Repeats event.filename number machine) (sound : Sound none machine)
    (visits : call.visits = [.record event true]) (leader : event.tid = event.tgid) :
    ∃ reply next, Plain.step call machine = .ok (reply, next) ∧
      Repeats event.filename (number + 1) next := by
  obtain ⟨next, recorded, more⟩ := repeats.record sound leader
  have same := step_eq_visits findnewThread call machine
  rw [visits, runAll, recorded] at same
  cases stepped : call.step findnewThread machine with
  | error failure =>
      rw [stepped] at same
      cases same
  | ok result =>
      obtain ⟨reply, last⟩ := result
      rw [stepped] at same
      cases same
      exact ⟨reply, next, stepped, more⟩

end Plain

/-- A leader that reports the same map again and again. -/
theorem Machine.repeats {call : Call} {event : MmapEvent} {number : Nat} {machine : Machine}
    {plain : Plain} (visits : call.visits = [.record event true]) (leader : event.tid = event.tgid)
    (times : Nat) (matched : Matches machine plain)
    (repeats : Plain.Repeats event.filename number plain) :
    ∃ replies last plain, runAll Machine.step (List.replicate times call) machine =
        .ok (replies, last) ∧ Matches last plain ∧
      Plain.Repeats event.filename (number + times) plain := by
  induction times generalizing machine plain number with
  | zero => exact ⟨[], machine, plain, rfl, matched, repeats⟩
  | succ times ih =>
      obtain ⟨reply, next, stepped, more⟩ := repeats.step matched.2 visits leader
      have agree := agree_step call machine plain matched
      rw [stepped] at agree
      obtain ⟨⟨reply', middle⟩, middleStepped, -, middleMatched⟩ := agree.ok_right
      obtain ⟨replies, last, final, ran, lastMatched, counted⟩ := ih middleMatched more
      refine ⟨reply' :: replies, last, final, ?_, lastMatched, ?_⟩
      · rw [List.replicate_succ]
        exact runAll_cons_eq_ok.mpr ⟨reply', middle, replies, middleStepped, ran, rfl⟩
      · rwa [Nat.add_right_comm] at counted

/-- All the maps that were recorded are of one dso. -/
theorem Plain.Repeats.count_eq {name : List Char} {number : Nat} {machine : Plain}
    (repeats : Repeats name number machine) (positive : number ≠ 0) :
    ∃ ref dso, machine.store.dsos.get? ref = some dso ∧
      (machine.store.mapObjs.count fun map => map.dso = ref) = number := by
  have inhabited : ∃ first map, machine.store.mapObjs.get? first = some map := by
    by_contra none
    apply positive
    rw [← repeats.number]
    apply Heap.count_eq_zero.mpr
    intro ref map live
    exact absurd ⟨ref, map, live⟩ none
  obtain ⟨first, map, live⟩ := inhabited
  obtain ⟨dso, dsoLive, isNamed⟩ := repeats.named first map live
  have accounted := repeats.accounted
  have unique :
    ∀ other map', machine.store.mapObjs.get? other = some map' → map'.dso = map.dso := by
    intro other map' live'
    obtain ⟨dso', dsoLive', isNamed'⟩ := repeats.named other map' live'
    apply accounted.interned.eq_of_name (accounted.rooted map'.dso dso' dsoLive')
      (accounted.rooted map.dso dso dsoLive)
    rw [Dso.name_of_live dsoLive', Dso.name_of_live dsoLive, isNamed', isNamed]
  refine ⟨map.dso, dso, dsoLive, ?_⟩
  rw [← repeats.number]
  apply Heap.count_eq_count
  intro other map' live'
  exact iff_true_intro (unique other map' live')

end DwBpf
