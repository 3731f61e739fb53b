import DwBpf.Atlas.Lookup
import DwBpf.Event.Progress
import DwBpf.Foundation.RefLedger

/-! # Recording and enumerating maps as the atlas says

A map that is recorded goes behind the ranges of its process in the atlas
(`DwBpf.Plain.Drawn.agree_recordMap`), and `bpf_dl_iterate_phdr` gives its callback the
ranges of the process (`DwBpf.Plain.Drawn.iterateThread_eq`).
-/

namespace DwBpf

/-- Without an address space for the thread, recording a map fails an assertion. -/
theorem recordMap_refused {store : Store} {th : Ref Thread} {thread : Thread} {created : Bool}
    (accounted : store.Accounted) (event : MmapEvent) (live : store.threads.get? th = some thread)
    (space : (thread.ready created).addrSpace = false) :
    recordMap event created store th = .error (.assertion .mapInserted) := by
  obtain ⟨map, mapped, new⟩ := Map.new_returns accounted.interned event
  obtain ⟨dso, found, isFound, rfl, rfl⟩ := Map.new_of_found accounted.interned new
  rw [← isFound.same.1] at live
  have prepare := @Thread.prepareAccess_eq_ready
    { found with mapObjs := found.mapObjs.alloc (Map.init event dso) } th thread created live
  rw [space] at prepare
  simp only [recordMap, new, ok_bind, Thread.insertMap, prepare]
  rfl

namespace Plain

variable {machine : Plain} {th : Ref Thread} {disk : Disk} {group : Pid → Pid}
  {layout : Pid → List Range} {spent : Nat} {atlas : Atlas} {event : MmapEvent} {created : Bool}

section Recorded

variable {next found : Store} {dso : Ref Dso} {maps : Ref Maps} {object : Maps}
  {path : List (Frame (Ref Map))}

/-- The ranges of every process after a map was recorded: those of its own process have
one more. -/
theorem Drawn.pages_recorded (drawn : Drawn disk group layout spent machine atlas)
    (same : groups ⟨next, machine.table⟩ = machine.groups)
    (shares : machine.groups event.tid = some (event.tgid, maps))
    (recorded : Recorded event machine.store th next dso found maps object path)
    {member its : Pid} {other : Ref Maps} {after : Maps}
    (isMember : groups ⟨next, machine.table⟩ member = some (its, other))
    (isAfter : next.maps.get? other = some after) :
    after.head.map (Map.rangeOf next) =
      Function.update atlas.ranges event.tgid (atlas.ranges event.tgid ++ [event.range]) its := by
  have accounted := drawn.ranged.accounted
  rw [same] at isMember
  have kept : ∀ maps object, machine.store.maps.get? maps = some object →
      object.head.map (Map.rangeOf next) = object.head.map (Map.rangeOf machine.store) := by
    intro maps object stored
    apply List.map_congr_left
    intro ref listed
    obtain ⟨map, live, -⟩ := accounted.entries maps object stored ref
      ((accounted.head maps object stored).mem_iff.mp listed)
    rw [Map.rangeOf_of_live live, Map.rangeOf_of_live (recorded.live_of_live live),
      recorded.range_of_live accounted live]
  have process := drawn.ranged.isolated.separated _ _ _ _ _ _ isMember shares
  obtain ⟨isMaps, -, head⟩ | ⟨isOther, stored⟩ := recorded.maps_cases isAfter
  · obtain rfl := process.mp isMaps
    have isNew : next.mapObjs.get? machine.store.mapObjs.nextRef =
        some (Map.recorded event dso maps) := by
      rw [recorded.allocated]
      exact Heap.get?_alloc_nextRef _ _
    rw [Function.update_self, head, List.map_append, kept maps object recorded.stored,
      drawn.pages event.tid event.tgid maps object shares recorded.stored, List.map_singleton,
      Map.rangeOf_of_live isNew, recorded.range_new]
  · have elsewhere : its ≠ event.tgid := fun isTgid => isOther (process.mpr isTgid)
    rw [Function.update_of_ne elsewhere, kept other after stored]
    exact drawn.pages member its other after isMember stored

/-- The names are as they were, and the thread of the event has an address space. -/
theorem Drawn.marks_recorded {thread : Thread}
    (drawn : Drawn disk group layout spent machine atlas) (sound : Sound none machine)
    (inTable : machine.table event.tid = some th)
    (live : machine.store.threads.get? th = some thread)
    (recorded : Recorded event machine.store th next dso found maps object path)
    (readied : next.threads.get? th =
      some { thread.ready created with refcnt := (thread.ready created).refcnt - 1 })
    (space : (thread.ready created).addrSpace = true) (tid : Pid) :
    (marksOf ⟨next, machine.table⟩ tid).1 = atlas.names tid ∧
      (marksOf ⟨next, machine.table⟩ tid).2.1 =
        Function.update atlas.prepared event.tid true tid := by
  by_cases own : tid = event.tid
  · subst own
    have after := @marksOf_of_live ⟨next, machine.table⟩ event.tid th _ inTable readied
    have before := drawn.marks event.tid
    rw [marksOf_of_live inTable live] at before
    rw [after, Function.update_self]
    exact ⟨(Thread.ready_name created thread).trans before.1, space⟩
  · have elsewhere : marksOf ⟨next, machine.table⟩ tid = machine.marksOf tid := by
      refine marksOf_congr rfl ?_
      intro ref isRef
      rw [recorded.others ref (ne_of_tid_ne sound.tabled inTable isRef own)]
    rw [elsewhere, Function.update_of_ne own]
    exact drawn.marks tid

/-- The machine after a map was recorded is described by the atlas with its range. -/
theorem Drawn.recorded {thread : Thread} (drawn : Drawn disk group layout spent machine atlas)
    (sound : Sound none machine) (inTable : machine.table event.tid = some th)
    (live : machine.store.threads.get? th = some thread) (inGroup : thread.tgid = event.tgid)
    (counted : 2 ≤ thread.refcnt.toNat) (offered : event.range ∈ layout event.tgid)
    (same : groups ⟨next, machine.table⟩ = machine.groups)
    (recorded : Recorded event machine.store th next dso found maps object path)
    (readied : next.threads.get? th =
      some { thread.ready created with refcnt := (thread.ready created).refcnt - 1 })
    (space : (thread.ready created).addrSpace = true) :
    Drawn disk group layout spent ⟨next, machine.table⟩
      { atlas with
        ranges := Function.update atlas.ranges event.tgid
          (atlas.ranges event.tgid ++ [event.range])
        prepared := Function.update atlas.prepared event.tid true } := by
  have shares : machine.groups event.tid = some (event.tgid, maps) := by
    obtain ⟨_, isLive, has⟩ := recorded.has
    cases live.symm.trans isLive
    rw [groups_of_has inTable live has, inGroup]
  obtain ⟨ranged, -⟩ := @ranged_recorded machine ⟨next, machine.table⟩ group layout event.tgid
    event.tid th event dso found maps object path drawn.ranged same shares recorded offered
  have operated := drawn.operated th thread live
  refine ⟨ranged, ?_, ?_, ?_, ?_, ?_, ?_⟩
  · intro ref dso' isLive
    change next.dsos.get? ref = some dso' at isLive
    rw [recorded.dsos] at isLive
    exact recorded.interned.data
      (fun name => Consistent (disk.files name) (disk.hdrs name)) (fun _ => consistent_new _ _)
      drawn.onDisk ref dso' isLive
  · intro member its other after isMember isAfter
    exact drawn.pages_recorded same shares recorded isMember isAfter
  · intro its some
    rw [same]
    by_cases process : its = event.tgid
    · exact ⟨event.tid, maps, process ▸ shares⟩
    · dsimp only at some
      rw [Function.update_of_ne process] at some
      exact drawn.blank its some
  · intro tid
    exact drawn.marks_recorded sound inTable live recorded readied space tid
  · intro ref after isLive spaced
    by_cases isTh : ref = th
    · subst isTh
      cases readied.symm.trans isLive
      exact Thread.ready_ulops operated
    · rw [recorded.others ref isTh] at isLive
      exact drawn.operated ref after isLive spaced
  · intro ref after isLive
    by_cases isTh : ref = th
    · subst isTh
      obtain ⟨stored, isStored, count⟩ := recorded.counted thread live
      cases isStored.symm.trans isLive
      have bounds := drawn.held ref thread live
      have nonzero : thread.refcnt ≠ 0 := by
        intro zero
        rw [zero] at counted
        contradiction
      rw [count, RefLedger.toNat_sub_one nonzero]
      omega
    · rw [recorded.others ref isTh] at isLive
      exact drawn.held ref after isLive

end Recorded

variable {tgid tid : Pid} {thread : Thread}

theorem Drawn.addrSpace_eq (drawn : Drawn disk group layout spent machine atlas)
    (inTable : machine.table tid = some th) (live : machine.store.threads.get? th = some thread) :
    thread.addrSpace = atlas.prepared tid := by
  have marks := (drawn.marks tid).2
  rw [marksOf_of_live inTable live] at marks
  exact marks

theorem Drawn.name_eq (drawn : Drawn disk group layout spent machine atlas)
    (inTable : machine.table tid = some th) (live : machine.store.threads.get? th = some thread) :
    thread.name = atlas.names tid := by
  have marks := (drawn.marks tid).1
  rw [marksOf_of_live inTable live] at marks
  exact marks

/-- A map is recorded, or refused, as in the atlas. -/
theorem Drawn.agree_recordMap (drawn : Drawn disk group layout spent machine atlas)
    (sound : Sound none machine) (home : Home machine event.tgid event.tid th)
    (counted : ∀ thread, machine.store.threads.get? th = some thread → 2 ≤ thread.refcnt.toNat)
    (offered : event.range ∈ layout event.tgid) :
    Agree (fun first second => Drawn disk group layout spent ⟨first.2, machine.table⟩ second)
      (recordMap event created machine.store th) (atlas.record event created) := by
  obtain ⟨inTable, thread, live, inGroup⟩ := home
  obtain ⟨maps, object, has, stored⟩ := sound.valid.mapped th thread live
  have linked := sound.linked th thread live
  have accounted := drawn.ranged.accounted
  have space := Thread.ready_addrSpace created thread
  rw [drawn.addrSpace_eq inTable live] at space
  unfold Atlas.record
  cases prepared : atlas.prepared event.tid || created with
  | false =>
      rw [prepared] at space
      rw [recordMap_refused accounted event live space]
      rfl
  | true =>
      rw [prepared] at space
      have two := counted thread live
      have more : thread.refcnt - 1 ≠ 0 := by
        intro one
        have isOne : thread.refcnt.toNat = 1 := by
          rw [← BitVec.sub_add_cancel thread.refcnt 1, one]
          rfl
        omega
      obtain ⟨next, ran, readied⟩ := recordMap_runs accounted event live linked space more has
        stored
      obtain ⟨dso, found, maps, object, path, recorded⟩ := recorded_of_recordMap accounted.interned
        live linked ran
      have same : groups ⟨next, machine.table⟩ = machine.groups :=
        @groups_steady machine ⟨next, machine.table⟩ (steady_recordMap live linked ran) rfl
      rw [ran]
      exact drawn.recorded sound inTable live inGroup two offered same recorded readied space

theorem rangeOf_info (store : Store) (ref : Ref Map) :
    (Map.rangeOf store ref).info = Map.info store ref := by
  unfold Map.rangeOf Map.info
  cases store.mapObjs.get? ref with
  | none => rfl
  | some map => rfl

/-- The walk over maps that are all there gives the callback their infos, and stops where
it says so. -/
theorem iteratePhdr_eq {store : Store} (callback : Nat → PhdrInfo → Int) {refs : List (Ref Map)}
    (live : ∀ ref ∈ refs, ∃ map dso, store.mapObjs.get? ref = some map ∧
      store.dsos.get? map.dso = some dso) (turn : Nat) :
    iteratePhdr callback store refs turn =
      .ok (PhdrInfo.visit callback (refs.map (Map.info store)) turn) := by
  induction refs generalizing turn with
  | nil => rfl
  | cons ref refs ih =>
      obtain ⟨map, dso, isLive, dsoLive⟩ := live ref (List.mem_cons_self ..)
      have given : Map.info store ref = ⟨map.start, map.stop, dso.longName⟩ := by
        rw [Map.info_of_live isLive, Range.info, Map.range, Dso.name_of_live dsoLive]
      have rest := ih (fun later member => live later (List.mem_cons_of_mem _ member)) (turn + 1)
      simp only [iteratePhdr, deref_of_get? isLive, deref_of_get? dsoLive, ok_bind, pure_eq_ok,
        List.map_cons, ← given, PhdrInfo.visit, rest]
      split
      · rfl
      · rfl

/-- The callback is given the ranges of the process. -/
theorem Drawn.iterateThread_eq (drawn : Drawn disk group layout spent machine atlas)
    (sound : Sound none machine) (home : Home machine tgid tid th)
    (callback : Nat → PhdrInfo → Int) :
    iterateThread callback machine.store th =
      .ok (PhdrInfo.visit callback ((atlas.ranges tgid).map Range.info) 0, machine.store) := by
  obtain ⟨inTable, thread, live, inGroup⟩ := home
  obtain ⟨maps, object, has, stored⟩ := sound.valid.mapped th thread live
  have isMember : machine.groups tid = some (tgid, maps) := by
    rw [groups_of_has inTable live has, inGroup]
  have accounted := drawn.ranged.accounted
  have infos : (atlas.ranges tgid).map Range.info = object.head.map (Map.info machine.store) := by
    rw [← drawn.pages tid tgid maps object isMember stored, List.map_map]
    exact List.map_congr_left fun ref _ => rangeOf_info machine.store ref
  have listed : ∀ ref ∈ object.head, ∃ map dso, machine.store.mapObjs.get? ref = some map ∧
      machine.store.dsos.get? map.dso = some dso := by
    intro ref member
    obtain ⟨map, isLive, -⟩ := accounted.entries maps object stored ref
      ((accounted.head maps object stored).mem_iff.mp member)
    obtain ⟨dso, dsoLive⟩ := accounted.named ref map isLive
    exact ⟨map, dso, isLive, dsoLive⟩
  rw [iterateThread, deref_of_get? live, ok_bind, has]
  dsimp only
  rw [deref_of_get? stored, ok_bind, iteratePhdr_eq callback listed 0, infos]
  rfl

end Plain

end DwBpf
