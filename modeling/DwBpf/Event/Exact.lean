import DwBpf.Event.Ranges

/-! # Looking up addresses in every run

If each tid comes with one tgid, that of a process being its leader's too, and the text
of each process's maps stays the same, a search in the maps of a thread gives what the text
of its process says, once it was read (`DwBpf.runs_find`). A leader whose tid was that of a
thread of another process brings the maps of that process along
(`DwBpf.reusedTid_finds_other`).
-/

namespace DwBpf

namespace Plain

variable {machine middle next : Plain} {group : Pid → Pid} {ranges : Pid → List Range}
  {tgid tid : Pid} {th : Ref Thread} {visit : Visit}

/-- Every tid has its tgid, and the maps of a process hold its ranges only. -/
structure Ranged (group : Pid → Pid) (ranges : Pid → List Range) (machine : Plain) : Prop where
  accounted : machine.store.Accounted
  isolated : Isolated machine
  owned : machine.groups.Owned group
  within : ∀ member its maps, machine.groups member = some (its, maps) →
    machine.store.Within (ranges its) maps

theorem ranged_new (group : Pid → Pid) (ranges : Pid → List Range) :
    Ranged group ranges Plain.new :=
  ⟨accounted_empty, isolated_new, nofun, nofun⟩

/-- The maps of the process hold the range. -/
def Knows (machine : Plain) (tgid : Pid) (range : Range) : Prop :=
  ∃ member maps, machine.groups member = some (tgid, maps) ∧ machine.store.Has maps range

/-- A lookup of a thread in its own process gives no process the ranges of another. -/
theorem Outcome.ranged {found : Option (Ref Thread)}
    (outcome : Outcome machine tgid tid (.ok (found, middle))) (sound : Sound none machine)
    (ranged : Ranged group ranges machine) (own : group tid = tgid) (leads : group tgid = tgid) :
    Ranged group ranges middle ∧
      ∀ its range, machine.Knows its range → middle.Knows its range := by
  have regroups := outcome.regroups
  have accounted := ranged.accounted.regroups regroups
  rcases outcome.groups_eq sound with stays | ⟨joins, -⟩
  · refine ⟨⟨accounted, ?_, ?_, ?_⟩, ?_⟩
    · exact ⟨stays ▸ ranged.isolated.separated, stays ▸ ranged.isolated.led⟩
    · exact stays ▸ ranged.owned
    · intro member its maps isMember
      rw [stays] at isMember
      exact (ranged.within member its maps isMember).regroups regroups
    · rintro its range ⟨member, maps, isMember, has⟩
      exact ⟨member, maps, by rw [stays, isMember], has.regroups regroups⟩
  · have clear : machine.groups.Clear tgid tid := Groups.clear_of_owned leads ranged.owned
    refine ⟨⟨accounted, ?_, ?_, ?_⟩, ?_⟩
    · constructor
      · rw [joins]
        exact Groups.separated_join ranged.isolated.separated ranged.isolated.led clear
          (sound_unused sound)
      · rw [joins]
        exact Groups.led_join ranged.isolated.led
    · rw [joins]
      exact Groups.owned_join leads ranged.owned own
    · intro member its maps isMember
      rw [joins] at isMember
      rcases Groups.space_of_join leads ranged.owned isMember with rfl | ⟨other, isOther⟩
      · exact Store.within_of_fresh regroups _
      · exact (ranged.within other its maps isOther).regroups regroups
    · rintro its range ⟨member, maps, isMember, has⟩
      refine ⟨member, maps, ?_, has.regroups regroups⟩
      rw [joins]
      exact Groups.join_of_some leads ranged.isolated.separated ranged.isolated.led ranged.owned
        own isMember

theorem ranged_quiet (ranged : Ranged group ranges middle) (quiet : middle.store.Quiet next.store)
    (table : next.table = middle.table) :
    Ranged group ranges next ∧ ∀ its range, middle.Knows its range → next.Knows its range := by
  have same : next.groups = middle.groups := groups_steady quiet.steady table
  refine ⟨⟨ranged.accounted.quiet quiet, ?_, ?_, ?_⟩, ?_⟩
  · exact ⟨same ▸ ranged.isolated.separated, same ▸ ranged.isolated.led⟩
  · exact same ▸ ranged.owned
  · intro member its maps isMember
    rw [same] at isMember
    exact (ranged.within member its maps isMember).quiet quiet
  · rintro its range ⟨member, maps, isMember, has⟩
    exact ⟨member, maps, by rw [same, isMember], quiet.has_iff.mpr has⟩

/-- Recording a range of the process enters it into the maps that all threads of
the process share, and into no other. -/
theorem ranged_recorded {event : MmapEvent} {dso : Ref Dso} {found : Store} {maps : Ref Maps}
    {object : Maps} {path : List (Frame (Ref Map))} (ranged : Ranged group ranges middle)
    (same : next.groups = middle.groups) (inGroup : middle.groups tid = some (tgid, maps))
    (recorded : Recorded event middle.store th next.store dso found maps object path)
    (offered : event.range ∈ ranges tgid) :
    Ranged group ranges next ∧ (∀ its range, middle.Knows its range → next.Knows its range) ∧
      next.Knows tgid event.range := by
  have accounted := ranged.accounted
  refine ⟨⟨accounted.recorded recorded, ?_, ?_, ?_⟩, ?_, ?_⟩
  · exact ⟨same ▸ ranged.isolated.separated, same ▸ ranged.isolated.led⟩
  · exact same ▸ ranged.owned
  · intro member its others isMember
    rw [same] at isMember
    have within := ranged.within member its others isMember
    constructor
    · intro range has
      rcases (recorded.has_iff accounted).mp has with before | ⟨rfl, rfl⟩
      · exact within.member range before
      · rw [(ranged.isolated.separated _ _ _ _ _ _ isMember inGroup).mp rfl]
        exact offered
    · intro after isAfter
      exact recorded.sorted accounted within.sorted isAfter
  · rintro its range ⟨member, others, isMember, has⟩
    exact ⟨member, others, by rw [same, isMember], (recorded.has_iff accounted).mpr (.inl has)⟩
  · exact ⟨tid, maps, by rw [same, inGroup], (recorded.has_iff accounted).mpr (.inr ⟨rfl, rfl⟩)⟩

/-- A visit that comes with the right tgid, and with a range of its process if it
records one, keeps what is known, and makes the recorded range known. -/
theorem Visited.ranged (visited : Visited visit machine tgid tid th middle next)
    (sound : Sound none machine) (ranged : Ranged group ranges machine) (own : group tid = tgid)
    (leads : group tgid = tgid)
    (offered : ∀ event created, visit = .record event created →
      event.range ∈ ranges event.tgid) :
    Ranged group ranges next ∧ (∀ its range, machine.Knows its range → next.Knows its range) ∧
      ∀ event created, visit = .record event created → next.Knows event.tgid event.range := by
  obtain ⟨rangedMiddle, keeps⟩ := visited.outcome.ranged sound ranged own leads
  have same : next.groups = middle.groups := groups_steady visited.steady visited.table
  cases visit with
  | fault failure => cases visited.pair
  | record event created =>
      cases visited.pair
      obtain ⟨inTable, thread, live, inGroup⟩ := visited.home
      obtain ⟨dso, found, maps, object, path, recorded⟩ := recorded_of_recordMap
        rangedMiddle.accounted.interned live (visited.sound.linked th thread live) visited.worked
      have shares : middle.groups event.tid = some (event.tgid, maps) := by
        obtain ⟨_, isLive, has⟩ := recorded.has
        cases live.symm.trans isLive
        rw [groups_of_has inTable live has, inGroup]
      obtain ⟨rangedNext, keepsOn, known⟩ := ranged_recorded rangedMiddle same shares recorded
        (offered event created rfl)
      refine ⟨rangedNext, fun its range knows => keepsOn its range (keeps its range knows), ?_⟩
      rintro event created ⟨⟩
      exact known
  | resolve st uc created unwinder =>
      obtain ⟨⟨result, after⟩, resolve, done⟩ := bind_eq_ok_iff.mp visited.worked
      cases done
      obtain ⟨rangedNext, keepsOn⟩ := ranged_quiet rangedMiddle (quiet_resolveThread resolve)
        visited.table
      exact ⟨rangedNext, fun its range knows => keepsOn its range (keeps its range knows), nofun⟩
  | iterate tgid callback =>
      obtain ⟨⟨result, after⟩, iterate, done⟩ := bind_eq_ok_iff.mp visited.worked
      cases done
      obtain ⟨rangedNext, keepsOn⟩ := ranged_quiet rangedMiddle (quiet_iterateThread iterate)
        visited.table
      exact ⟨rangedNext, fun its range knows => keepsOn its range (keeps its range knows), nofun⟩

end Plain

/-- The call comes with the one tgid of its tid, and the leader it may look up, whose
tid is the tgid, is in its own group. -/
def Call.Stable (group : Pid → Pid) (call : Call) : Prop :=
  group call.pair.2 = call.pair.1 ∧ group call.pair.1 = call.pair.1

/-- The text that is read of the maps of a process is that of its mappings. -/
def Call.Reads (procs : Pid → List Vma) (call : Call) : Prop :=
  ∀ tgid tid text scratch created, call = .threadMap tgid tid (some text) scratch created →
    text = mapsText (procs tgid)

/-- The call reads the maps of the process `tgid`. -/
def Call.ReadsMapsOf (tgid : Pid) (call : Call) : Prop :=
  ∃ tid text scratch created, call = .threadMap tgid tid (some text) scratch created

/-- The call records the range for the process. -/
def Call.Records (call : Call) (tgid : Pid) (range : Range) : Prop :=
  ∃ event created, .record event created ∈ call.visits ∧ event.tgid = tgid ∧ event.range = range

section Calls

variable {procs : Pid → List Vma} {call : Call} {tgid : Pid} {range : Range}

/-- Only executable ranges of a process are recorded for it. -/
theorem Call.mem_of_records (reads : call.Reads procs) (records : call.Records tgid range) :
    range ∈ executables (procs tgid) := by
  obtain ⟨event, created, member, rfl, rfl⟩ := records
  cases call with
  | threadMap tgid tid text scratch created =>
      cases text with
      | none => cases member
      | some text =>
          obtain rfl := reads tgid tid text scratch created rfl
          rw [visits, Vma.chunks_mapsText, visitLines_of_vmas, List.mem_map] at member
          obtain ⟨vma, executable, same⟩ := member
          cases same
          rw [Vma.range_event]
          exact List.mem_map_of_mem executable
  | resolveCallchain st uc created unwinder =>
      rw [visits, List.mem_singleton] at member
      cases member
  | dlIteratePhdr tgid callback =>
      rw [visits, List.mem_singleton] at member
      cases member

/-- All executable ranges of a process are recorded when its maps are read. -/
theorem Call.records_of_mem (reads : call.Reads procs) (readsMaps : call.ReadsMapsOf tgid)
    (offered : range ∈ executables (procs tgid)) : call.Records tgid range := by
  obtain ⟨tid, text, scratch, created, rfl⟩ := readsMaps
  obtain rfl := reads tgid tid text scratch created rfl
  obtain ⟨vma, executable, rfl⟩ := List.mem_map.mp offered
  refine ⟨_, created, ?_, rfl, vma.range_event scratch.event.inoGeneration tgid tid⟩
  rw [Call.visits, Vma.chunks_mapsText, visitLines_of_vmas]
  exact List.mem_map_of_mem executable

theorem layout_executables {vmas : List Vma}
    (disjoint : (executables vmas).Pairwise Range.Disjoint) : Layout (executables vmas) := by
  refine ⟨?_, disjoint⟩
  intro range member
  obtain ⟨vma, -, rfl⟩ := List.mem_map.mp member
  exact vma.nonempty

end Calls

namespace Plain

variable {machine next : Plain} {group : Pid → Pid} {procs : Pid → List Vma} {call : Call}

/-- What is known in a machine between two calls. -/
def Between (group : Pid → Pid) (procs : Pid → List Vma) (machine : Plain) : Prop :=
  Sound none machine ∧ Ranged group (fun tgid => executables (procs tgid)) machine

/-- A call adds what it records to what is known, and nothing else. -/
theorem step_between {reply : Reply} (between : Between group procs machine)
    (stable : call.Stable group) (reads : call.Reads procs)
    (stepped : Plain.step call machine = .ok (reply, next)) :
    Between group procs next ∧ ∀ goal : Pid × Range,
      machine.Knows goal.1 goal.2 ∨ call.Records goal.1 goal.2 → next.Knows goal.1 goal.2 := by
  obtain ⟨dones, ran⟩ := visits_of_step findnewThread stepped
  have kept : ∀ (visit : Visit) (plain : Plain) (done : Unit) (after : Plain),
      Between group procs plain → visit ∈ call.visits →
      visit.step findnewThread plain = .ok (done, after) → Between group procs after ∧
        ∀ goal : Pid × Range, plain.Knows goal.1 goal.2 ∨
          (∃ event created, visit = .record event created ∧ event.tgid = goal.1 ∧
            event.range = goal.2) → after.Knows goal.1 goal.2 := by
    intro visit plain done after before member visitRan
    obtain ⟨tgid, tid, th, middle, visited⟩ := visit_cases before.1 visitRan
    have pair : (tgid, tid) = call.pair := Call.pair_of_mem member visited.pair
    rw [Call.Stable, ← pair] at stable
    obtain ⟨ranged, keeps, known⟩ := visited.ranged before.1 before.2 stable.1 stable.2 <| by
      rintro event created rfl
      exact Call.mem_of_records reads ⟨event, created, member, rfl, rfl⟩
    refine ⟨⟨visited.sound_next, ranged⟩, ?_⟩
    rintro ⟨its, range⟩ (knows | ⟨event, created, rfl, rfl, rfl⟩)
    · exact keeps its range knows
    · exact known event created rfl
  obtain ⟨betweenNext, achieved⟩ := runAll_achieves kept between (fun _ member => member) ran
  refine ⟨betweenNext, ?_⟩
  rintro goal (knows | ⟨event, created, member, its, range⟩)
  · exact achieved goal (.inl knows)
  · exact achieved goal (.inr ⟨_, member, event, created, rfl, its, range⟩)

end Plain

/-- A run over hashed tables is one over plain tables. -/
theorem Machine.plain_run {calls : List Call} {replies : List Reply} {machine : Machine}
    (ran : runAll Machine.step calls Machine.new = .ok (replies, machine)) :
    ∃ plain, Matches machine plain ∧
      runAll Plain.step calls Plain.new = .ok (replies, plain) := by
  have agree := runAll_agree agree_step calls matches_new
  rw [ran] at agree
  obtain ⟨⟨replies', plain⟩, plainRan, same, matched⟩ := agree.ok_left
  obtain rfl : replies = replies' := same
  exact ⟨plain, matched, plainRan⟩

/-- In every run in which each tid comes with one tgid, the leader's of a process with that
process, and each process has one text of maps, with disjoint executable ranges: once the
text of a thread's process was read, the search in the maps of the thread gives the
executable line around an address, and nothing exactly when there is none. -/
theorem runs_find {group : Pid → Pid} {procs : Pid → List Vma}
    (disjoint : ∀ tgid, (executables (procs tgid)).Pairwise Range.Disjoint) {calls : List Call}
    (stable : ∀ call ∈ calls, call.Stable group) (reads : ∀ call ∈ calls, call.Reads procs)
    {replies : List Reply} {machine : Machine}
    (ran : runAll Machine.step calls Machine.new = .ok (replies, machine)) {th : Ref Thread}
    {thread : Thread} (held : machine.Holds th thread)
    (wasRead : ∃ call ∈ calls, call.ReadsMapsOf thread.tgid) (ip : U64) :
    ∃ maps, thread.maps = some maps ∧
      ((Maps.find machine.store maps ip = .ok none ∧
          ∀ vma ∈ procs thread.tgid, vma.exec = true → ¬ vma.range.Covers ip) ∨
        ∃ ref map dso vma, Maps.find machine.store maps ip = .ok (some ref) ∧
          machine.store.mapObjs.get? ref = some map ∧
          machine.store.dsos.get? map.dso = some dso ∧
          vma ∈ procs thread.tgid ∧ vma.exec = true ∧ vma.range.Covers ip ∧
          vma.range = ⟨map.start, map.stop, map.pgoff, dso.longName⟩) := by
  obtain ⟨plain, matched, plainRan⟩ := Machine.plain_run ran
  have kept : ∀ (call : Call) (plain : Plain) (reply : Reply) (after : Plain),
      Plain.Between group procs plain → (call.Stable group ∧ call.Reads procs) →
      Plain.step call plain = .ok (reply, after) → Plain.Between group procs after ∧
        ∀ goal : Pid × Range, plain.Knows goal.1 goal.2 ∨ call.Records goal.1 goal.2 →
          after.Knows goal.1 goal.2 := by
    intro call plain reply after before meets stepped
    exact Plain.step_between before meets.1 meets.2 stepped
  obtain ⟨⟨sound, ranged⟩, achieved⟩ := runAll_achieves kept
    ⟨Plain.sound_new, Plain.ranged_new _ _⟩ (fun call member => ⟨stable call member,
      reads call member⟩) plainRan
  have live := (Machine.holds_iff matched).mp held
  obtain ⟨maps, object, has, stored⟩ := sound.valid.mapped th thread live
  have inGroup := Plain.groups_of_has (sound.listed th thread live) live has
  have complete : ∀ range ∈ executables (procs thread.tgid), plain.store.Has maps range := by
    intro range offered
    obtain ⟨call, member, readsMaps⟩ := wasRead
    obtain ⟨other, others, isOther, hasRange⟩ := achieved (thread.tgid, range)
      (.inr ⟨call, member, Call.records_of_mem (reads call member) readsMaps offered⟩)
    rwa [(ranged.isolated.separated _ _ _ _ _ _ inGroup isOther).mpr rfl]
  refine ⟨maps, has, ?_⟩
  rw [matched.1.store]
  rcases Maps.find_of_within ranged.accounted stored (ranged.within _ _ _ inGroup) complete
    (layout_executables (disjoint thread.tgid)) ip with
    ⟨missed, none⟩ | ⟨ref, map, found, mapLive, offered, covers⟩
  · refine .inl ⟨missed, fun vma member exec => none _ ?_⟩
    exact List.mem_map.mpr ⟨vma, List.mem_filter.mpr ⟨member, exec⟩, rfl⟩
  · obtain ⟨vma, inFilter, same⟩ := List.mem_map.mp offered
    obtain ⟨member, exec⟩ := List.mem_filter.mp inFilter
    obtain ⟨dso, dsoLive⟩ := ranged.accounted.named ref map mapLive
    refine .inr ⟨ref, map, dso, vma, found, mapLive, dsoLive, member, exec, same ▸ covers, ?_⟩
    rw [same, Map.range, Dso.name_of_live dsoLive]

/-- The text of `/bin/ls` in a process. -/
def Vma.ls : Vma where
  start := 0x400000
  stop := 0x48c000
  read := true
  write := false
  exec := true
  shared := false
  pgoff := 0
  maj := 0xfd
  min := 3
  ino := 960637
  pad := 0
  name := "/bin/ls".toList
  nonempty := lsText_nonempty
  plain := lsName_plain
  flush := lsName_flush
  nameFits := by decide
  lineFits := by decide

/-- A member and the leader of a group read its maps one after the other. -/
theorem runs_find_mapLs :
    ∃ replies machine thread maps ref, runAll Machine.step [.mapLs 1 2, .mapLs 1 1] Machine.new =
      .ok (replies, machine) ∧ machine.Holds ⟨0⟩ thread ∧ thread.maps = some maps ∧
      Maps.find machine.store maps 0x400123 = .ok (some ref) := by
  have run : ∃ replies machine thread, runAll Machine.step [.mapLs 1 2, .mapLs 1 1] Machine.new =
      .ok (replies, machine) ∧ machine.Holds ⟨0⟩ thread ∧ thread.tgid = 1 := by
    refine ⟨_, _, _, rfl, ⟨⟨2, ?_⟩, rfl⟩, ?_⟩
    · decide
    · decide
  obtain ⟨replies, machine, thread, ran, held, tgid⟩ := run
  have stable : ∀ call ∈ [Call.mapLs 1 2, .mapLs 1 1], call.Stable fun _ => 1 := by
    intro call member
    rcases List.mem_pair.mp member with rfl | rfl
    · exact ⟨rfl, rfl⟩
    · exact ⟨rfl, rfl⟩
  have reads : ∀ call ∈ [Call.mapLs 1 2, .mapLs 1 1], call.Reads fun _ => [.ls] := by
    intro call member
    rcases List.mem_pair.mp member with rfl | rfl
    · rintro _ _ _ _ _ ⟨⟩
      decide
    · rintro _ _ _ _ _ ⟨⟩
      decide
  have wasRead : ∃ call ∈ [Call.mapLs 1 2, .mapLs 1 1], call.ReadsMapsOf thread.tgid := by
    rw [tgid]
    exact ⟨.mapLs 1 2, List.mem_cons_self .., 2, _, _, _, rfl⟩
  obtain ⟨maps, has, ⟨-, none⟩ | ⟨ref, map, dso, vma, found, -⟩⟩ :=
    runs_find (fun _ => List.pairwise_singleton _ _) stable reads ran held wasRead 0x400123
  · exact absurd ⟨by decide, by decide⟩ (none .ls (List.mem_singleton_self _) rfl)
  · exact ⟨replies, machine, thread, maps, ref, ran, held, has, found⟩

/-- The text of `/bin/cat` in a process. -/
def Vma.cat : Vma where
  start := 0x400000
  stop := 0x40c000
  read := true
  write := false
  exec := true
  shared := false
  pgoff := 0
  maj := 0xfd
  min := 3
  ino := 960640
  pad := 0
  name := "/bin/cat".toList
  nonempty := by decide
  plain := by simp
  flush := by
    rintro char ⟨⟩
    rfl
  nameFits := by decide
  lineFits := by decide

/-- A call that maps another executable file into a process. -/
def Call.mapCat (tgid tid : Pid) : Call :=
  .threadMap tgid tid (some "00400000-0040c000 r-xp 00000000 fd:03 960640 /bin/cat\n".toList)
    ⟨⟨0, 0, 0, 0, 0, 0, 0, 0, 0, 0, 0, []⟩, fun _ => '\x00'⟩ true

/-- Thread 2 of process 1 has ended, its number is that of a new process, and a thread of
that process finds the range of process 1. Every tid came with one tgid, but the leader
that the library looked up for thread 3 was a thread of process 1. -/
theorem reusedTid_finds_other :
    ∃ (group : Pid → Pid) (procs : Pid → List Vma) (calls : List Call) (replies : List Reply)
      (machine : Machine) (thread : Thread) (maps : Ref Maps) (ref : Ref Map) (map : Map)
      (dso : Dso),
      (∀ tgid, (executables (procs tgid)).Pairwise Range.Disjoint) ∧
      (∀ call ∈ calls, group call.pair.2 = call.pair.1 ∧ call.Reads procs) ∧
      runAll Machine.step calls Machine.new = .ok (replies, machine) ∧
      machine.Holds ⟨2⟩ thread ∧ (∃ call ∈ calls, call.ReadsMapsOf thread.tgid) ∧
      thread.maps = some maps ∧ Maps.find machine.store maps 0x400123 = .ok (some ref) ∧
      machine.store.mapObjs.get? ref = some map ∧ machine.store.dsos.get? map.dso = some dso ∧
      ∀ vma ∈ procs thread.tgid, vma.range ≠ ⟨map.start, map.stop, map.pgoff, dso.longName⟩ := by
  have run : ∃ replies machine thread maps ref map dso,
      runAll Machine.step [.mapLs 1 2, .mapCat 2 3] Machine.new = .ok (replies, machine) ∧
      machine.Holds ⟨2⟩ thread ∧ thread.tgid = 2 ∧ thread.maps = some maps ∧
      Maps.find machine.store maps 0x400123 = .ok (some ref) ∧
      machine.store.mapObjs.get? ref = some map ∧ machine.store.dsos.get? map.dso = some dso ∧
      map.stop = 0x48c000 := by
    refine ⟨_, _, _, _, _, _, _, rfl, ⟨⟨3, ?_⟩, rfl⟩, rfl, rfl, rfl, rfl, rfl, rfl⟩
    decide
  obtain ⟨replies, machine, thread, maps, ref, map, dso, ran, held, tgid, has, found, live, dsoLive,
    stop⟩ := run
  refine ⟨fun tid => if tid = 3 then 2 else 1, fun tgid => if tgid = 2 then [.cat] else [.ls],
    _, replies, machine, thread, maps, ref, map, dso, ?_, ?_, ran, held, ?_, has, found, live,
    dsoLive, ?_⟩
  · intro tgid
    dsimp only
    split
    · exact List.pairwise_singleton _ _
    · exact List.pairwise_singleton _ _
  · intro call member
    rcases List.mem_pair.mp member with rfl | rfl
    · refine ⟨rfl, ?_⟩
      rintro _ _ _ _ _ ⟨⟩
      decide
    · refine ⟨rfl, ?_⟩
      rintro _ _ _ _ _ ⟨⟩
      decide
  · rw [tgid]
    exact ⟨.mapCat 2 3, List.mem_of_mem_tail (List.mem_cons_self ..), 3, _, _, _, rfl⟩
  · rw [tgid]
    intro vma member same
    rw [List.mem_singleton.mp member] at same
    have stops : (0x40c000 : U64) = map.stop := congrArg Range.stop same
    rw [stop] at stops
    contradiction

end DwBpf
