import DwBpf.Atlas.Answers
import DwBpf.Atlas.Recording

/-! # Samples resolved as the atlas says

In a machine that an atlas describes, the ranges of the process of a sample are what is found
around addresses (`DwBpf.Plain.Drawn.depicts`). So the sample is resolved as in the atlas, which
then describes what is left of the machine (`DwBpf.Plain.Drawn.agree_resolveThread`).
-/

namespace DwBpf

/-- The array of the stacktrace has room for as many entries as it is deep. -/
def Stacktrace.Roomy (st : Stacktrace) : Prop :=
  ∀ ips, st.ips = some ips → st.depth ≤ ips.length

/-- A thread after a sample of it was seen. -/
def Thread.seen (uc : UnwindCtx) (created : Bool) (thread : Thread) : Thread :=
  if uc.name.text = thread.name.text then { thread.ready created with name := uc.name.copy }
  else thread.ready created

section Thread

variable {store : Store} {th : Ref Thread} {thread : Thread} {uc : UnwindCtx} {created : Bool}

theorem Thread.seen_kept (uc : UnwindCtx) (created : Bool) (thread : Thread) :
    (thread.seen uc created).core = thread.core ∧
      (thread.seen uc created).refcnt = thread.refcnt := by
  have kept := Thread.ready_kept created thread
  unfold seen
  split
  · exact kept
  · exact kept

theorem Thread.seen_marks (uc : UnwindCtx) (created : Bool) (thread : Thread) :
    (thread.seen uc created).name =
        (if uc.name.text = thread.name.text then uc.name.copy else thread.name) ∧
      (thread.seen uc created).addrSpace = (thread.addrSpace || created) ∧
      (thread.seen uc created).ulops = (thread.ready created).ulops := by
  unfold seen
  split
  · exact ⟨rfl, Thread.ready_addrSpace created thread, rfl⟩
  · exact ⟨Thread.ready_name created thread, Thread.ready_addrSpace created thread, rfl⟩

/-- The thread is marked, and then the stack is walked. -/
theorem resolveThread_eq_seen (live : store.threads.get? th = some thread)
    (st : Option Stacktrace) (unwinder : Unwinder) :
    resolveThread st uc created unwinder store th = (do
      let ((status, st), next) ←
        Unwind.getEntries unwinder (store.modifyThread th (Thread.seen uc created)) th uc st
      return (⟨status, st, decide (uc.name.text = thread.name.text)⟩, next)) := by
  have readied : (store.modifyThread th (Thread.ready created)).threads.get? th =
      some (thread.ready created) := by
    rw [Store.modifyThread_threads, Heap.get?_modify_self, live, Option.map_some]
  have name := Thread.ready_name created thread
  have same : ∀ change, thread.seen uc created = change thread →
      store.modifyThread th (Thread.seen uc created) = store.modifyThread th change := by
    intro change agrees
    unfold Store.modifyThread
    congr 1
    apply Heap.modify_congr
    intro object isLive
    cases live.symm.trans isLive
    exact agrees
  rw [resolveThread, Thread.prepareAccess_eq_ready created live, ok_bind]
  dsimp only
  rw [Thread.setComm, deref_of_get? readied, ok_bind, name]
  by_cases named : uc.name.text = thread.name.text
  · have marked : thread.seen uc created =
        { thread.ready created with name := uc.name.copy } := if_pos named
    rw [if_pos named, same (fun thread => { thread.ready created with name := uc.name.copy })
      marked, Store.modifyThread_modifyThread, decide_eq_true named]
    rfl
  · have marked : thread.seen uc created = thread.ready created := if_neg named
    rw [if_neg named, same _ marked, decide_eq_false named]
    rfl

end Thread

section Entries

variable {disk : Disk} {atlas : Atlas} {info : UnwindInfo} {store : Store} {thread : Thread}
  {unwinder : Unwinder}

/-- The entries of a stacktrace are those of the atlas. -/
theorem agree_getEntries (depicts : store.Depicts disk atlas info)
    (live : store.threads.get? info.thread = some thread)
    (space : thread.addrSpace = atlas.prepared info.uc.tid)
    (fromDisk : ∀ request ∈ unwinder.requests,
      request.FromDisk disk (atlas.ranges info.uc.tgid) info.uc)
    (st : Option Stacktrace) (roomy : ∀ given, st = some given → given.Roomy) :
    Agree (fun first second => first.1 = second ∧ first.2.Depicts disk atlas info)
      (getEntries unwinder store info st) (atlas.entries disk info.uc unwinder st) := by
  cases st with
  | none => exact ⟨rfl, depicts⟩
  | some st =>
      obtain ⟨depth, array⟩ := st
      cases array with
      | none => exact ⟨rfl, depicts⟩
      | some ips =>
          by_cases shallow : depth < 1
          · rw [getEntries, Atlas.entries]
            dsimp only
            rw [if_pos shallow, if_pos shallow]
            exact ⟨rfl, depicts⟩
          · obtain ⟨depth, rfl⟩ := Int.eq_ofNat_of_zero_le (by omega : 0 ≤ depth)
            have positive : 1 ≤ depth := by omega
            have fits : (depth : Int) ≤ ips.length := roomy _ rfl ips rfl
            have room : depth ≤ ips.length := Int.ofNat_le.mp fits
            rw [Atlas.entries]
            dsimp only
            rw [if_neg shallow, Int.toNat_natCast]
            cases prepared : atlas.prepared info.uc.tid with
            | false =>
                rw [getEntries_of_missing positive room live (space.trans prepared)]
                exact ⟨rfl, depicts⟩
            | true =>
                rw [getEntries_of_created positive room live (space.trans prepared)]
                refine (agree_requests depicts fromDisk).bind ?_
                intro first answers related
                exact ⟨rfl, related.2⟩

end Entries

namespace Plain

variable {machine : Plain} {th : Ref Thread} {thread : Thread} {disk : Disk} {group : Pid → Pid}
  {layout : Pid → List Range} {spent : Nat} {atlas seen : Atlas} {tgid tid : Pid}
  {uc : UnwindCtx} {created : Bool} {next : Store} {unwinder : Unwinder}

/-- The maps of a process have the ranges of the atlas. -/
theorem Drawn.mem_ranges_iff {member its : Pid} {maps : Ref Maps} {object : Maps} {range : Range}
    (drawn : Drawn disk group layout spent machine atlas)
    (isMember : machine.groups member = some (its, maps))
    (stored : machine.store.maps.get? maps = some object) :
    range ∈ atlas.ranges its ↔ machine.store.Has maps range := by
  have accounted := drawn.ranged.accounted
  have perm := accounted.head maps object stored
  rw [← drawn.pages member its maps object isMember stored, List.mem_map]
  constructor
  · intro listed
    obtain ⟨ref, isListed, rfl⟩ := listed
    have entry := perm.mem_iff.mp isListed
    obtain ⟨map, live, -⟩ := accounted.entries maps object stored ref entry
    exact ⟨object, ref, map, stored, entry, live, (Map.rangeOf_of_live live).symm⟩
  · intro has
    obtain ⟨object', ref, map, stored', entry, live, rfl⟩ := has
    cases stored.symm.trans stored'
    exact ⟨ref, perm.mem_iff.mpr entry, Map.rangeOf_of_live live⟩

theorem Drawn.mem_layout {range : Range} {its : Pid}
    (drawn : Drawn disk group layout spent machine atlas) (sound : Sound none machine)
    (recorded : range ∈ atlas.ranges its) : range ∈ layout its := by
  obtain ⟨member, maps, isMember⟩ := drawn.blank its (List.ne_nil_of_mem recorded)
  obtain ⟨ref, thread, -, live, -, -, has⟩ := (groups_eq_some sound.tabled).mp isMember
  obtain ⟨object, stored⟩ := sound.live ref thread maps live has
  exact (drawn.ranged.within member its maps isMember).member range
    ((drawn.mem_ranges_iff isMember stored).mp recorded)

/-- The ranges of the process are what is found around addresses. -/
theorem Drawn.depicts (drawn : Drawn disk group layout spent machine atlas)
    (sound : Sound none machine) (home : Home machine uc.tgid uc.tid th)
    (drawing : Layout (layout uc.tgid)) : machine.store.Depicts disk atlas ⟨uc, th⟩ := by
  obtain ⟨inTable, thread, live, inGroup⟩ := home
  obtain ⟨maps, object, has, stored⟩ := sound.valid.mapped th thread live
  have isMember : machine.groups uc.tid = some (uc.tgid, maps) := by
    rw [groups_of_has inTable live has, inGroup]
  have accounted := drawn.ranged.accounted
  have within : machine.store.Within (atlas.ranges uc.tgid) maps := by
    refine ⟨fun range => (drawn.mem_ranges_iff isMember stored).mpr, ?_⟩
    exact (drawn.ranged.within uc.tid uc.tgid maps isMember).sorted
  refine ⟨drawn.onDisk, fun addr => ?_⟩
  obtain ⟨missed, none⟩ | ⟨ref, map, found, isLive, recorded, covers⟩ :=
    Maps.find_of_layout accounted stored within
      (fun range => (drawn.mem_ranges_iff isMember stored).mp) drawing
      (fun range => drawn.mem_layout sound) addr
  · left
    refine ⟨Atlas.rangeAt_eq_none.mpr none, ?_⟩
    rw [findMap, deref_of_get? live, ok_bind, has]
    dsimp only
    rw [missed]
    rfl
  · obtain ⟨dso, dsoLive⟩ := accounted.named ref map isLive
    refine .inr ⟨map, dso, ?_, ?_, dsoLive⟩
    · exact Atlas.rangeAt_of_covers drawing (fun range => drawn.mem_layout sound) recorded covers
    · rw [findMap, deref_of_get? live, ok_bind, has]
      dsimp only
      rw [found, ok_bind]
      dsimp only
      rw [deref_of_get? isLive]
      rfl

/-- Work that leaves the maps and the counters alone is described by the same ranges. -/
theorem Drawn.quiet (drawn : Drawn disk group layout spent machine atlas)
    (quiet : machine.store.Quiet next) (onDisk : next.OnDisk disk)
    (ranges : seen.ranges = atlas.ranges)
    (marks : ∀ tid, (marksOf ⟨next, machine.table⟩ tid).1 = seen.names tid ∧
      (marksOf ⟨next, machine.table⟩ tid).2.1 = seen.prepared tid)
    (operated : next.Operated) : Drawn disk group layout spent ⟨next, machine.table⟩ seen := by
  have same : groups ⟨next, machine.table⟩ = machine.groups :=
    @groups_steady machine ⟨next, machine.table⟩ quiet.steady rfl
  have ranged := (@ranged_quiet machine ⟨next, machine.table⟩ group layout drawn.ranged quiet rfl).1
  have pages : Map.rangeOf next = Map.rangeOf machine.store := by
    funext ref
    rw [Map.rangeOf, Map.rangeOf, quiet.mapObjs]
    congr 2
    funext map
    rw [Map.range, Map.range, quiet.name_eq]
  refine ⟨ranged, onDisk, ?_, ?_, marks, operated, ?_⟩
  · intro member its maps object isMember stored
    dsimp only at stored ⊢
    rw [same] at isMember
    rw [quiet.maps] at stored
    rw [pages, ranges]
    exact drawn.pages member its maps object isMember stored
  · intro its some
    rw [ranges] at some
    rw [same]
    exact drawn.blank its some
  · intro ref after live
    have counted := quiet.threads ref
    rw [show next.threads.get? ref = _ from live, Option.map_some, eq_comm,
      Option.map_eq_some_iff] at counted
    obtain ⟨before, wasLive, equal⟩ := counted
    rw [← show before.refcnt = after.refcnt from congrArg Prod.snd equal]
    exact drawn.held ref before wasLive

/-- The atlas sees the sample as its thread does. -/
theorem Drawn.sampled (drawn : Drawn disk group layout spent machine atlas)
    (sound : Sound none machine) (inTable : machine.table uc.tid = some th)
    (live : machine.store.threads.get? th = some thread) :
    Drawn disk group layout spent
      ⟨machine.store.modifyThread th (Thread.seen uc created), machine.table⟩
      (atlas.seen uc created) := by
  have quiet : machine.store.Quiet (machine.store.modifyThread th (Thread.seen uc created)) :=
    Store.quiet_modifyThread (fun thread => (thread.seen_kept uc created).1)
      fun thread => (thread.seen_kept uc created).2
  have isName := drawn.name_eq inTable live
  refine drawn.quiet quiet drawn.onDisk rfl ?_ ?_
  · intro tid
    by_cases own : tid = uc.tid
    · subst own
      obtain ⟨name, space, -⟩ := thread.seen_marks uc created
      have isLive : (machine.store.modifyThread th (Thread.seen uc created)).threads.get? th =
          some (thread.seen uc created) := by
        rw [Store.modifyThread_threads, Heap.get?_modify_self, live, Option.map_some]
      rw [@marksOf_of_live ⟨machine.store.modifyThread th (Thread.seen uc created),
        machine.table⟩ _ _ _ inTable isLive]
      refine ⟨name.trans ?_, space.trans ?_⟩
      · rw [Atlas.seen, Atlas.named, ← isName]
        dsimp only
        by_cases named : uc.name.text = thread.name.text
        · rw [if_pos named, decide_eq_true named, if_pos rfl, Function.update_self]
        · rw [if_neg named, decide_eq_false named, if_neg Bool.false_ne_true, isName]
      · rw [Atlas.seen]
        dsimp only
        rw [Function.update_self, drawn.addrSpace_eq inTable live]
    · have same : marksOf ⟨machine.store.modifyThread th (Thread.seen uc created),
          machine.table⟩ tid = machine.marksOf tid := by
        refine marksOf_congr rfl ?_
        intro ref isRef
        dsimp only
        rw [Store.modifyThread_threads,
          Heap.get?_modify_of_ne _ (ne_of_tid_ne sound.tabled inTable isRef own)]
      have marks := drawn.marks tid
      rw [same, Atlas.seen]
      dsimp only
      rw [Function.update_of_ne own]
      refine ⟨?_, marks.2⟩
      split
      · rw [Function.update_of_ne own]
        exact marks.1
      · exact marks.1
  · apply drawn.operated.modifyThread
    intro thread operated spaced
    rw [(thread.seen_marks uc created).2.2]
    exact Thread.ready_ulops operated

/-- What libunwind asks for changes nothing that the atlas describes. -/
theorem Drawn.walked {st : Option Stacktrace} {result : Int × Option Stacktrace}
    (drawn : Drawn disk group layout spent machine atlas) (onDisk : next.OnDisk disk)
    (ran : Unwind.getEntries unwinder machine.store th uc st = .ok (result, next)) :
    Drawn disk group layout spent ⟨next, machine.table⟩ atlas := by
  have only := congrArg Store.threads (onlyDsos_of_resolve ran)
  change next.threads = machine.store.threads at only
  have quiet : machine.store.Quiet next := by
    obtain rfl | ⟨answers, served⟩ := Unwind.requests_of_getEntries ran
    · exact .refl _
    · exact quiet_requests served
  refine drawn.quiet quiet onDisk rfl ?_ (drawn.operated.of_threads_eq only)
  intro tid
  have same : marksOf ⟨next, machine.table⟩ tid = marksOf machine tid := by
    refine marksOf_congr rfl fun ref _ => ?_
    dsimp only
    rw [only]
  rw [same]
  exact drawn.marks tid

/-- A sample is resolved as in the atlas. -/
theorem Drawn.agree_resolveThread (drawn : Drawn disk group layout spent machine atlas)
    (sound : Sound none machine) (home : Home machine uc.tgid uc.tid th)
    (drawing : Layout (layout uc.tgid))
    (fromDisk : ∀ request ∈ unwinder.requests, request.FromDisk disk (layout uc.tgid) uc)
    (st : Option Stacktrace) (roomy : ∀ given, st = some given → given.Roomy) :
    Agree (fun first second => first.1 = second.1 ∧
        Drawn disk group layout spent ⟨first.2, machine.table⟩ second.2)
      (resolveThread st uc created unwinder machine.store th)
      (atlas.resolve disk st uc created unwinder) := by
  obtain ⟨inTable, thread, live, inGroup⟩ := home
  obtain ⟨maps, object, has, stored⟩ := sound.valid.mapped th thread live
  let named := machine.store.modifyThread th (Thread.seen uc created)
  have isStored : named.maps.get? maps = some object := stored
  have isLive : named.threads.get? th = some (thread.seen uc created) := by
    rw [Store.modifyThread_threads, Heap.get?_modify_self, live, Option.map_some]
  have quiet : machine.store.Quiet named :=
    Store.quiet_modifyThread (fun thread => (thread.seen_kept uc created).1)
      fun thread => (thread.seen_kept uc created).2
  have core := (thread.seen_kept uc created).1
  simp only [Thread.core, Prod.mk.injEq] at core
  have sampled : Drawn disk group layout spent ⟨named, machine.table⟩ (atlas.seen uc created) :=
    drawn.sampled sound inTable live
  have soundNamed : Sound none ⟨named, machine.table⟩ := Sound.steady sound quiet.steady
  have depicts : named.Depicts disk (atlas.seen uc created) ⟨uc, th⟩ :=
    sampled.depicts soundNamed ⟨inTable, thread.seen uc created, isLive, core.1.trans inGroup⟩
      drawing
  have flushed : decide (uc.name.text = thread.name.text) = atlas.named uc := by
    rw [Atlas.named, drawn.name_eq inTable live]
  have operated : (thread.seen uc created).ulops = true := by
    rw [(thread.seen_marks uc created).2.2]
    exact Thread.ready_ulops (drawn.operated th thread live)
  have walks : Unwind.getEntries unwinder named th uc st =
      getEntries unwinder named ⟨uc, th⟩ st := by
    rw [Unwind.getEntries, deref_of_get? isLive, ok_bind, if_pos operated,
      core.2.2.1.trans has]
    dsimp only
    rw [deref_of_get? isStored, ok_bind]
  rw [resolveThread_eq_seen live, walks, flushed, Atlas.resolve]
  have entries := agree_getEntries depicts isLive (sampled.addrSpace_eq inTable isLive)
    (fun request member => (fromDisk request member).mono fun range =>
      sampled.mem_layout soundNamed) st roomy
  refine entries.bind_of_ok ?_
  intro result answer ran _ related
  obtain ⟨⟨status, left⟩, next⟩ := result
  obtain ⟨same, depictsNext⟩ := related
  obtain rfl : (status, left) = answer := same
  exact ⟨rfl, sampled.walked depictsNext.onDisk (walks.trans ran)⟩

end Plain

end DwBpf
