import DwBpf.Event.Exact
import DwBpf.Event.Lookup

/-! # The list and the tree of the maps

The maps of a thread are in a list, which `bpf_dl_iterate_phdr` walks, and in a
tree, which `maps__find` searches. Along every run the two hold the same maps, and
the list has them in the order in which they were recorded (`DwBpf.Store.Logged`).
-/

namespace DwBpf

/-- The event that a visit records. -/
def Visit.event? : Visit → Option MmapEvent
  | .fault _ => none
  | .record event _ => some event
  | .resolve _ _ _ _ => none
  | .iterate _ _ => none

/-- The events that a call records, in order. -/
def Call.events (call : Call) : List MmapEvent := call.visits.filterMap Visit.event?

/-- The maps are as the events so far recorded them: the map at an address is that of
the event with this number, trees are sorted by starts and lists by addresses. -/
structure Store.Logged (events : List MmapEvent) (store : Store) : Prop where
  accounted : store.Accounted
  sorted : ∀ maps object, store.maps.get? maps = some object →
    object.entries.toList.Pairwise fun first second =>
      Map.startOf store first ≤ Map.startOf store second
  ordered : ∀ maps object, store.maps.get? maps = some object →
    object.head.Pairwise fun first second => first.addr < second.addr
  number : store.mapObjs.next = events.length
  ranges : ∀ ref map, store.mapObjs.get? ref = some map →
    events[ref.addr]?.map MmapEvent.range = some (map.range store)

theorem logged_empty : Store.empty.Logged [] where
  accounted := accounted_empty
  sorted := by
    intro maps object stored
    cases stored
  ordered := by
    intro maps object stored
    cases stored
  number := rfl
  ranges := by
    intro ref map live
    cases live

section Logged

variable {events : List MmapEvent} {event : MmapEvent} {store next found : Store}
  {th : Ref Thread} {dso : Ref Dso} {maps : Ref Maps} {object : Maps}
  {path : List (Frame (Ref Map))}

theorem Store.Logged.regroups (logged : store.Logged events) (regroups : store.Regroups next) :
    next.Logged events where
  accounted := logged.accounted.regroups regroups
  sorted := by
    intro maps after isAfter
    rcases regroups.came maps after isAfter with ⟨empty, -⟩ | ⟨object, stored, entries, -⟩
    · rw [empty]
      exact .nil
    · rw [entries]
      unfold Map.startOf
      rw [regroups.mapObjs]
      exact logged.sorted maps object stored
  ordered := by
    intro maps after isAfter
    rcases regroups.came maps after isAfter with ⟨-, empty⟩ | ⟨object, stored, -, head⟩
    · rw [empty]
      exact .nil
    · rw [head]
      exact logged.ordered maps object stored
  number := by rw [regroups.mapObjs, logged.number]
  ranges := by
    intro ref map live
    rw [regroups.mapObjs] at live
    rw [logged.ranges ref map live, Map.range, Map.range, name_of_dsos_eq regroups.dsos]

theorem Store.Logged.quiet (logged : store.Logged events) (quiet : store.Quiet next) :
    next.Logged events where
  accounted := logged.accounted.quiet quiet
  sorted := by
    unfold Map.startOf
    rw [quiet.maps, quiet.mapObjs]
    exact logged.sorted
  ordered := by
    rw [quiet.maps]
    exact logged.ordered
  number := by rw [quiet.mapObjs, logged.number]
  ranges := by
    intro ref map live
    rw [quiet.mapObjs] at live
    rw [logged.ranges ref map live, Map.range, Map.range, quiet.name_eq]

/-- The map of the event goes to the end of a list, as the newest one. -/
theorem Store.Logged.recorded (logged : store.Logged events)
    (recorded : Recorded event store th next dso found maps object path) :
    next.Logged (events ++ [event]) where
  accounted := logged.accounted.recorded recorded
  sorted := by
    intro others after isAfter
    exact recorded.sorted logged.accounted (logged.sorted others) isAfter
  ordered := by
    intro others after isAfter
    rcases recorded.maps_cases isAfter with ⟨rfl, -, head⟩ | ⟨-, stored⟩
    · rw [head, List.pairwise_append]
      refine ⟨logged.ordered _ object recorded.stored, List.pairwise_singleton .., ?_⟩
      intro first isFirst second isSecond
      rw [List.mem_singleton.mp isSecond]
      have member := (logged.accounted.head _ object recorded.stored).mem_iff.mp isFirst
      obtain ⟨map, live, -⟩ := logged.accounted.entries _ object recorded.stored first member
      exact Heap.addr_lt_next live
    · exact logged.ordered others after stored
  number := by
    rw [recorded.allocated, List.length_append, ← logged.number]
    rfl
  ranges := by
    intro ref map live
    rw [recorded.allocated] at live
    rcases Heap.get?_alloc_eq_some.mp live with ⟨rfl, rfl⟩ | wasLive
    · rw [recorded.range_new, show store.mapObjs.nextRef.addr = events.length from logged.number,
        List.getElem?_concat_length, Option.map_some]
    · have below : ref.addr < events.length := by
        rw [← logged.number]
        exact Heap.addr_lt_next wasLive
      rw [recorded.range_of_live logged.accounted wasLive, List.getElem?_append_left below,
        logged.ranges ref map wasLive]

end Logged

namespace Plain

variable {machine middle next : Plain} {tgid tid : Pid} {th : Ref Thread} {visit : Visit}
  {events : List MmapEvent} {call : Call}

/-- A visit adds its event, if it records one, to what is logged. -/
theorem Visited.logged (visited : Visited visit machine tgid tid th middle next)
    (logged : machine.store.Logged events) :
    next.store.Logged (events ++ visit.event?.toList) := by
  have loggedMiddle := logged.regroups visited.outcome.regroups
  cases visit with
  | fault failure => cases visited.worked
  | record event created =>
      obtain ⟨-, thread, live, -⟩ := visited.home
      obtain ⟨dso, found, maps, object, path, recorded⟩ :=
        recorded_of_recordMap loggedMiddle.accounted.interned live
          (visited.sound.linked th thread live) visited.worked
      exact loggedMiddle.recorded recorded
  | resolve st uc created unwinder =>
      rw [Visit.event?, Option.toList_none, List.append_nil]
      obtain ⟨⟨result, after⟩, resolved, done⟩ := bind_eq_ok_iff.mp visited.worked
      cases done
      exact loggedMiddle.quiet (quiet_resolveThread resolved)
  | iterate tgid callback =>
      rw [Visit.event?, Option.toList_none, List.append_nil]
      obtain ⟨⟨result, after⟩, iterated, done⟩ := bind_eq_ok_iff.mp visited.worked
      cases done
      exact loggedMiddle.quiet (quiet_iterateThread iterated)

/-- By induction on the visits: their events are logged in their order. -/
theorem visits_logged {visits : List Visit} {dones : List Unit} (sound : Sound none machine)
    (logged : machine.store.Logged events)
    (ran : runAll (Visit.step findnewThread) visits machine = .ok (dones, next)) :
    Sound none next ∧ next.store.Logged (events ++ visits.filterMap Visit.event?) := by
  have kept : ∀ past visit plain done after,
      (Sound none plain ∧ plain.store.Logged (events ++ List.filterMap Visit.event? past)) →
      visit.step findnewThread plain = .ok (done, after) →
      Sound none after ∧ after.store.Logged
        (events ++ (past ++ [visit]).filterMap Visit.event?) := by
    rintro past visit plain done after ⟨plainSound, plainLogged⟩ stepped
    obtain ⟨tgid, tid, th, middle, visited⟩ := visit_cases plainSound stepped
    have event : List.filterMap Visit.event? [visit] = visit.event?.toList := by
      rw [List.filterMap_cons]
      cases visit.event? <;> rfl
    rw [List.filterMap_append, ← List.append_assoc, event]
    exact ⟨visited.sound_next, visited.logged plainLogged⟩
  have start : Sound none machine ∧ machine.store.Logged
      (events ++ List.filterMap Visit.event? []) := by
    rw [List.filterMap_nil, List.append_nil]
    exact ⟨sound, logged⟩
  exact runAll_history kept start ran

theorem step_logged {reply : Reply} (sound : Sound none machine)
    (logged : machine.store.Logged events)
    (stepped : Plain.step call machine = .ok (reply, next)) :
    Sound none next ∧ next.store.Logged (events ++ call.events) := by
  obtain ⟨dones, ran⟩ := visits_of_step findnewThread stepped
  exact visits_logged sound logged ran

end Plain

/-- A machine that a run reaches has logged the events of its calls. -/
theorem Machine.logged_of_run {calls : List Call} {replies : List Reply} {machine : Machine}
    (ran : runAll Machine.step calls Machine.new = .ok (replies, machine)) :
    ∃ plain, Matches machine plain ∧ plain.store.Logged (calls.flatMap Call.events) := by
  obtain ⟨plain, matched, plainRan⟩ := plain_run ran
  have kept : ∀ past call before reply after,
      (Plain.Sound none before ∧ before.store.Logged (List.flatMap Call.events past)) →
      Plain.step call before = .ok (reply, after) →
      Plain.Sound none after ∧ after.store.Logged ((past ++ [call]).flatMap Call.events) := by
    rintro past call before reply after ⟨sound, logged⟩ stepped
    rw [List.flatMap_append, List.flatMap_singleton]
    exact Plain.step_logged sound logged stepped
  have start : Plain.Sound none Plain.new ∧ Plain.new.store.Logged (List.flatMap Call.events []) :=
    ⟨Plain.sound_new, logged_empty⟩
  exact ⟨plain, matched, (runAll_history kept start plainRan).2⟩

/-- What the callback is given for a range. -/
def Range.info (range : Range) : PhdrInfo := ⟨range.start, range.stop, range.name⟩

/-- What the callback is given for the map behind a reference. -/
def Map.info (store : Store) (ref : Ref Map) : PhdrInfo :=
  ((store.mapObjs.get? ref).map fun map => (map.range store).info).getD ⟨0, 0, []⟩

theorem Map.info_of_live {store : Store} {ref : Ref Map} {map : Map}
    (live : store.mapObjs.get? ref = some map) : Map.info store ref = (map.range store).info := by
  simp [Map.info, live]

/-- The info is about a range that holds the address. -/
def PhdrInfo.Covers (info : PhdrInfo) (ip : U64) : Prop :=
  info.startAddr ≤ ip ∧ ip < info.endAddr

/-- How a walk over maps with the infos `all` ends: the callback is given all of them,
or those up to the first that it answers with a negative number. -/
inductive Enumerates (callback : Nat → PhdrInfo → Int) (all : List PhdrInfo) :
    Int → List PhdrInfo → Prop
  | every (agrees : ∀ turn info, all[turn]? = some info → 0 ≤ callback turn info) :
      Enumerates callback all 0 all
  | upTo {turn : Nat} {info : PhdrInfo} (reached : all[turn]? = some info)
      (stops : callback turn info < 0)
      (agrees : ∀ earlier < turn, ∀ info, all[earlier]? = some info →
        0 ≤ callback earlier info) :
      Enumerates callback all (-1) (all.take (turn + 1))

/-- A callback that agrees to the first info goes on with the rest. -/
theorem Enumerates.cons {callback : Nat → PhdrInfo → Int} {info : PhdrInfo} {all : List PhdrInfo}
    {status : Int} {infos : List PhdrInfo} (agrees : 0 ≤ callback 0 info)
    (rest : Enumerates (fun turn => callback (turn + 1)) all status infos) :
    Enumerates callback (info :: all) status (info :: infos) := by
  cases rest with
  | every others =>
      apply Enumerates.every
      intro turn other reached
      cases turn with
      | zero =>
          cases reached
          exact agrees
      | succ turn => exact others turn other reached
  | @upTo turn other reached stops others =>
      rw [← List.take_succ_cons]
      apply @Enumerates.upTo callback (info :: all) (turn + 1) other reached stops
      intro earlier before other reached
      cases earlier with
      | zero =>
          cases reached
          exact agrees
      | succ earlier => exact others earlier (Nat.lt_of_succ_lt_succ before) other reached

section Walk

variable {events : List MmapEvent} {store : Store} {maps : Ref Maps} {object : Maps}

end Walk

namespace Plain

variable {machine : Plain} {tgid : Pid} {events : List MmapEvent} {th : Ref Thread}
  {thread : Thread} {maps : Ref Maps} {object : Maps}

end Plain

end DwBpf
