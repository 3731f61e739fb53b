import DwBpf.Event.Callbacks
import DwBpf.Event.Lookup
import DwBpf.Event.Naming
import DwBpf.Unwind.Walk

/-! # Samples resolved through one stacktrace

`get_entries` takes the depth of the stacktrace for its capacity and leaves there
the number of entries it has written. The next sample resolved through the same
stacktrace therefore finds room for as many entries only. The callchain of every
sample of a sequence is that of a fresh stacktrace exactly when the depth is 1, or
all samples are walked and their numbers of entries never increase
(`DwBpf.samples_independent_iff`).
-/

namespace DwBpf

/-- A thread with an address space has its operations. -/
def Store.Operated (store : Store) : Prop :=
  ∀ ref thread, store.threads.get? ref = some thread → thread.addrSpace = true →
    thread.ulops = true

section Operated

variable {store next : Store} {th : Ref Thread} {thread : Thread}

theorem Store.Operated.of_threads_eq (operated : store.Operated)
    (same : next.threads = store.threads) : next.Operated := by
  intro ref thread live
  rw [same] at live
  exact operated ref thread live

theorem Store.Operated.modifyThread {change : Thread → Thread} (operated : store.Operated)
    (keeps : ∀ thread, (thread.addrSpace = true → thread.ulops = true) →
      (change thread).addrSpace = true → (change thread).ulops = true) :
    (store.modifyThread th change).Operated := by
  intro ref thread live
  obtain ⟨before, wasLive, rfl⟩ := Heap.get?_modify_eq_some.mp live
  split
  · exact keeps before (operated ref before wasLive)
  · exact operated ref before wasLive

theorem Thread.operated_prepareAccess {created prepared : Bool} (operated : store.Operated)
    (ran : Thread.prepareAccess store th created = .ok (prepared, next)) : next.Operated := by
  obtain ⟨thread, -, rest⟩ := bind_eq_ok_iff.mp ran
  split at rest
  · cases rest
    exact operated
  · cases rest
    exact operated.modifyThread fun _ _ _ => rfl

/-- Resolving a sample leaves every thread its table of operations. -/
theorem operated_resolveThread {st : Option Stacktrace} {uc : UnwindCtx} {created : Bool}
    {unwinder : Unwinder} {result : Resolved} (operated : store.Operated)
    (ran : resolveThread st uc created unwinder store th = .ok (result, next)) :
    next.Operated := by
  obtain ⟨⟨prepared, ready⟩, prepare, rest⟩ := bind_eq_ok_iff.mp ran
  obtain ⟨⟨flushed, named⟩, comm, rest⟩ := bind_eq_ok_iff.mp rest
  obtain ⟨⟨⟨status, st'⟩, last⟩, entries, done⟩ := bind_eq_ok_iff.mp rest
  cases done
  have readied := Thread.operated_prepareAccess operated prepare
  refine Store.Operated.of_threads_eq ?_ (congrArg Store.threads (onlyDsos_of_resolve entries))
  obtain ⟨found, -, comm⟩ := bind_eq_ok_iff.mp comm
  split at comm
  · cases comm
    exact readied.modifyThread fun _ keeps => keeps
  · cases comm
    exact readied

/-- Inserting a map for a thread may create its address space, and then gives it the
table. -/
theorem Thread.operated_insertMap {map : Ref Map} {created inserted : Bool}
    (operated : store.Operated)
    (ran : Thread.insertMap store th map created = .ok (inserted, next)) : next.Operated := by
  obtain ⟨⟨prepared, ready⟩, prepare, rest⟩ := bind_eq_ok_iff.mp ran
  have operatedReady := Thread.operated_prepareAccess operated prepare
  dsimp only at rest
  split at rest
  · obtain ⟨thread, -, rest⟩ := bind_eq_ok_iff.mp rest
    split at rest
    · cases rest
    · obtain ⟨middle, inserts, done⟩ := bind_eq_ok_iff.mp rest
      cases done
      obtain ⟨object, stored, path, -, -, -, rfl⟩ := Maps.insert_eq inserts
      exact operatedReady.of_threads_eq rfl
  · cases rest
    exact operatedReady

theorem operated_recordMap {event : MmapEvent} {created : Bool} {result : Unit}
    (interned : store.Interned) (live : store.threads.get? th = some thread)
    (linked : thread.node = .tree) (operated : store.Operated)
    (ran : recordMap event created store th = .ok (result, next)) : next.Operated := by
  obtain ⟨⟨map, mapped⟩, new, rest⟩ := bind_eq_ok_iff.mp ran
  obtain ⟨⟨inserted, entered⟩, insert, rest⟩ := bind_eq_ok_iff.mp rest
  have steady := (Map.steady_new new).trans (Thread.steady_insertMap insert)
  have operatedMapped : mapped.Operated := by
    obtain ⟨dso, found, isFound, -, rfl⟩ := Map.new_of_found interned new
    exact operated.of_threads_eq isFound.same.1
  have operatedEntered := Thread.operated_insertMap operatedMapped insert
  dsimp only at rest
  split at rest
  · obtain ⟨released, putThread, rest⟩ := bind_eq_ok_iff.mp rest
    obtain ⟨final, putMap, done⟩ := bind_eq_ok_iff.mp rest
    cases done
    obtain ⟨after, afterLive, core⟩ := steady.live live
    simp only [Thread.core, Prod.mk.injEq] at core
    rw [Thread.put_of_linked afterLive (core.2.2.2.trans linked)] at putThread
    split at putThread
    · cases putThread
    · cases putThread
      refine Store.Operated.of_threads_eq ?_ (Map.threads_of_put putMap)
      exact operatedEntered.modifyThread fun _ keeps => keeps
  · cases rest

end Operated

namespace Plain

variable {machine middle next : Plain} {tgid tid : Pid} {th : Ref Thread} {visit : Visit}

/-- A lookup makes threads without an address space, which need no table yet. -/
theorem Outcome.operated {found : Option (Ref Thread)}
    (outcome : Outcome machine tgid tid (.ok (found, next))) (sound : Sound none machine)
    (operated : machine.store.Operated) : next.store.Operated := by
  intro ref thread live created
  have listed := (outcome.sound sound).listed ref thread live
  have same := outcome.marksOf_eq sound thread.tid
  rw [marksOf_of_live listed live] at same
  cases was : machine.table thread.tid with
  | none =>
      rw [marksOf_of_absent was] at same
      cases created.symm.trans (congrArg (fun marks => marks.2.1) same)
  | some ref' =>
      obtain ⟨before, wasLive, -⟩ := sound.tabled thread.tid ref' was
      rw [marksOf_of_live was wasLive] at same
      have addrSpace : thread.addrSpace = before.addrSpace := congrArg (fun marks => marks.2.1) same
      have ulops : thread.ulops = before.ulops := congrArg (fun marks => marks.2.2) same
      rw [ulops]
      exact operated ref' before wasLive (addrSpace.symm.trans created)

/-- Over a visit every thread with an address space keeps its table. -/
theorem Visited.operated (visited : Visited visit machine tgid tid th middle next)
    (sound : Sound none machine) (accounted : machine.store.Accounted)
    (operated : machine.store.Operated) : next.store.Operated := by
  have operatedMiddle := visited.outcome.operated sound operated
  obtain ⟨-, thread, live, -⟩ := visited.home
  have worked := visited.worked
  cases visit with
  | fault failure => cases worked
  | record event created =>
      exact operated_recordMap (accounted.regroups visited.outcome.regroups).interned live
        (visited.sound.linked th thread live) operatedMiddle worked
  | resolve st uc created unwinder =>
      obtain ⟨⟨result, after⟩, resolve, done⟩ := bind_eq_ok_iff.mp worked
      cases done
      exact operated_resolveThread operatedMiddle resolve
  | iterate tgid callback =>
      obtain ⟨⟨result, after⟩, iterate, done⟩ := bind_eq_ok_iff.mp worked
      cases done
      exact operatedMiddle.of_threads_eq (congrArg Store.threads (store_of_iterateThread iterate))

theorem step_operated {call : Call} {reply : Reply} (sound : Sound none machine)
    (accounted : machine.store.Accounted) (operated : machine.store.Operated)
    (stepped : Plain.step call machine = .ok (reply, next)) :
    next.store.Accounted ∧ next.store.Operated := by
  have kept : ∀ visit ∈ call.visits, ∀ plain tgid tid th middle after,
      plain.store.Accounted ∧ plain.store.Operated → Sound none plain →
      Visited visit plain tgid tid th middle after →
      after.store.Accounted ∧ after.store.Operated := by
    intro visit member plain tgid tid th middle after before plainSound visited
    exact ⟨visited.accounted before.1, visited.operated plainSound before.1 before.2⟩
  exact step_keeps sound kept ⟨accounted, operated⟩ stepped

end Plain

/-- A sample that is resolved, with what libunwind does for it. -/
structure Sample where
  uc : UnwindCtx
  created : Bool
  unwinder : Unwinder

/-- Resolve the sample through the stacktrace that the one before has left. -/
def Sample.step (sample : Sample) (state : Machine × Option Stacktrace) :
    Except Fault (Resolved × (Machine × Option Stacktrace)) := do
  let (result, machine) ← resolveCallchain Machine.findnewThread state.1 state.2 sample.uc
    sample.created sample.unwinder
  return (result, (machine, result.st))

/-- libunwind has an address space for the thread of the sample, or creates one. -/
def Sample.Accessible (sample : Sample) (machine : Machine) : Prop :=
  sample.created = true ∨ ∃ th thread, machine.Holds th thread ∧ thread.tid = sample.uc.tid ∧
    thread.addrSpace = true

/-- What the caller finds in a stacktrace: the depth, and as many entries. -/
def Stacktrace.callchain (st : Stacktrace) : Int × List U64 :=
  (st.depth, (st.ips.getD []).take st.depth.toNat)

/-- The callchain of the sample is that of any fresh stacktrace of the depth. -/
def Sample.Independent (depth : Nat) (state : Machine × Option Stacktrace) (sample : Sample) :
    Prop :=
  ∀ ips : List U64, depth ≤ ips.length → ∃ result next fresh next',
    sample.step state = .ok (result, next) ∧
    sample.step (state.1, some ⟨depth, some ips⟩) = .ok (fresh, next') ∧
    result.st.map Stacktrace.callchain = fresh.st.map Stacktrace.callchain

/-- What is left in the stacktrace. -/
def Sample.leaves (sample : Sample) (walked : Bool) (depth : Nat) (ips : List U64) : Stacktrace :=
  if walked then ⟨sample.unwinder.count depth,
    some (overwrite (sample.unwinder.entries (sample.uc.uregs .ip) depth) ips)⟩
  else ⟨depth, some (overwrite [sample.uc.uregs .ip] ips)⟩

section Step

variable {store : Store} {th : Ref Thread} {thread : Thread} {maps : Ref Maps} {object : Maps}
  {sample : Sample}

/-- The work on a sample is the same for all stacktraces, but for what is left in
them. -/
theorem resolveThread_eq (live : store.threads.get? th = some thread)
    (operated : thread.addrSpace = true → thread.ulops = true) (has : thread.maps = some maps)
    (stored : store.maps.get? maps = some object) (sample : Sample) :
    ∃ outcome : Except Fault ((Int × Bool) × Store), ∀ (depth : Nat) (ips : List U64),
      1 ≤ depth → depth ≤ ips.length →
      resolveThread (some ⟨depth, some ips⟩) sample.uc sample.created sample.unwinder store th = (do
        let ((status, flushed), next) ← outcome
        return (⟨status, some (sample.leaves (thread.addrSpace || sample.created) depth ips),
          flushed⟩, next)) := by
  obtain ⟨prepared, ready, before, prepare, readyMaps, beforeLive, access, ulops, beforeHas⟩ :=
    Thread.prepareAccess_ok live sample.created
  obtain ⟨flushed, named, after, comm, namedMaps, afterLive, afterAccess, afterUlops, afterHas⟩ :=
    Thread.setComm_ok beforeLive sample.uc.name
  have isStored : named.maps.get? maps = some object := by
    rw [namedMaps, readyMaps, stored]
  have resolve : ∀ st, resolveThread st sample.uc sample.created sample.unwinder store th =
      getEntries sample.unwinder named ⟨sample.uc, th⟩ st >>= fun result =>
        .ok (⟨result.1.1, result.1.2, flushed⟩, result.2) := by
    intro st
    rw [resolveThread, prepare, ok_bind]
    dsimp only
    rw [comm, ok_bind]
    dsimp only
    rw [Unwind.getEntries, deref_of_get? afterLive, ok_bind,
      if_pos (afterUlops.trans (ulops operated)), afterHas.trans (beforeHas.trans has)]
    dsimp only
    rw [deref_of_get? isStored, ok_bind]
    rfl
  rw [access] at afterAccess
  cases walked : thread.addrSpace || sample.created with
  | true =>
      rw [walked] at afterAccess
      refine ⟨runAll (Request.step ⟨sample.uc, th⟩) sample.unwinder.requests named >>= fun served =>
        .ok ((sample.unwinder.initRemote, flushed), served.2), ?_⟩
      intro depth ips positive room
      rw [resolve, getEntries_of_created positive room afterLive afterAccess]
      cases runAll (Request.step ⟨sample.uc, th⟩) sample.unwinder.requests named with
      | error failure => rfl
      | ok result => rfl
  | false =>
      rw [walked] at afterAccess
      refine ⟨.ok ((-1, flushed), named), ?_⟩
      intro depth ips positive room
      rw [resolve, getEntries_of_missing positive room afterLive afterAccess]
      rfl

end Step

section Machine

variable {machine : Machine} {plain : Plain} {sample : Sample}

/-- A sample can be walked if its thread has an address space or gets one. -/
theorem Sample.accessible_iff (matched : Machine.Matches machine plain) (sample : Sample) :
    sample.Accessible machine ↔
      ((plain.marksOf sample.uc.tid).2.1 || sample.created) = true := by
  rw [Accessible, Bool.or_eq_true, or_comm]
  simp only [Machine.holds_iff matched]
  refine or_congr ?_ Iff.rfl
  constructor
  · rintro ⟨th, thread, live, own, created⟩
    have listed := matched.2.listed th thread live
    rw [own] at listed
    rw [Plain.marksOf_of_live listed live]
    exact created
  · intro created
    cases found : plain.table sample.uc.tid with
    | none =>
        rw [Plain.marksOf_of_absent found] at created
        cases created
    | some th =>
        obtain ⟨thread, live, own⟩ := matched.2.tabled _ th found
        rw [Plain.marksOf_of_live found live] at created
        exact ⟨th, thread, live, own, created⟩

/-- A sample does the same through all stacktraces, but for what it leaves there. -/
theorem Sample.step_eq (matched : Machine.Matches machine plain) (operated : plain.store.Operated)
    (sample : Sample) :
    ∃ (outcome : Except Fault ((Int × Bool) × Machine)) (walked : Bool),
      (walked = true ↔ sample.Accessible machine) ∧
      ∀ (depth : Nat) (ips : List U64), 1 ≤ depth → depth ≤ ips.length →
        sample.step (machine, some ⟨depth, some ips⟩) = (do
          let ((status, flushed), next) ← outcome
          return (⟨status, some (sample.leaves walked depth ips), flushed⟩,
            (next, some (sample.leaves walked depth ips)))) := by
  have accessible := (accessible_iff matched sample).symm
  rcases Machine.findnewThread_of_matches matched sample.uc.tgid sample.uc.tid with
    ⟨failure, looked, -, -⟩ | ⟨th, next, plainNext, looked, -, outcome, matchedNext⟩
  · refine ⟨.error failure, _, accessible, ?_⟩
    intro depth ips positive room
    rw [step, resolveCallchain, withThread, looked]
    rfl
  · have sound := matchedNext.2
    obtain ⟨_, same, found, thread, live, -⟩ := outcome.home matched.2
    cases same
    obtain ⟨maps, object, has, stored⟩ := sound.valid.mapped th thread live
    have marks := outcome.marksOf_eq matched.2 sample.uc.tid
    rw [Plain.marksOf_of_live found live] at marks
    rw [← marks] at accessible
    have operatedNext := outcome.operated matched.2 operated th thread live
    obtain ⟨worked, resolve⟩ := resolveThread_eq live operatedNext has stored sample
    refine ⟨worked >>= fun result => .ok (result.1, ⟨result.2, next.table⟩), _, accessible, ?_⟩
    intro depth ips positive room
    rw [step, resolveCallchain, withThread, looked, ok_bind]
    dsimp only
    rw [matchedNext.1.store, resolve depth ips positive room]
    cases worked with
    | error failure => rfl
    | ok result => rfl

end Machine

section Callchains

variable {sample : Sample} {limit depth : Nat} {ips : List U64} {ip : U64}

/-- The entries are the first of those of the whole stack. -/
theorem Unwinder.entries_eq_take (unwinder : Unwinder) (positive : 1 ≤ depth) :
    unwinder.entries ip depth =
      (ip :: if unwinder.initRemote = 0 then unwinder.frames.map callSite else []).take
        (unwinder.count depth) := by
  unfold Unwinder.entries Unwinder.count
  split
  · obtain ⟨room, rfl⟩ := Nat.exists_eq_add_of_le positive
    rw [Nat.add_sub_cancel_left, Nat.add_comm 1, Nat.add_min_add_right, List.take_succ_cons,
      List.map_take, List.cons.injEq, List.take_eq_take_iff, List.length_map]
    exact ⟨rfl, by omega⟩
  · rfl

theorem Unwinder.count_eq_iff (unwinder : Unwinder) (positive : 1 ≤ depth) (le : depth ≤ limit) :
    unwinder.count depth = unwinder.count limit ↔ unwinder.count limit ≤ depth := by
  unfold Unwinder.count
  split
  · omega
  · omega

theorem Sample.callchain_walked (positive : 1 ≤ depth) :
    (sample.leaves true depth ips).callchain = (↑(sample.unwinder.count depth),
      sample.unwinder.entries (sample.uc.uregs .ip) depth) := by
  have length := sample.unwinder.length_entries (sample.uc.uregs .ip) positive
  rw [leaves, if_pos rfl, Stacktrace.callchain]
  dsimp only
  rw [Option.getD_some, Int.toNat_natCast, overwrite, ← length, List.take_left']
  rfl

theorem Sample.callchain_missing :
    (sample.leaves false depth ips).callchain =
      (↑depth, (sample.uc.uregs .ip :: ips.drop 1).take depth) := rfl

/-- A stacktrace that is less deep gets the same callchain exactly if the whole walk fits
into it. -/
theorem Sample.callchain_walked_iff (positive : 1 ≤ depth) (le : depth ≤ limit) {fresh : List U64} :
    (sample.leaves true depth ips).callchain = (sample.leaves true limit fresh).callchain ↔
      sample.unwinder.count limit ≤ depth := by
  rw [callchain_walked positive, callchain_walked (Nat.le_trans positive le),
    ← sample.unwinder.count_eq_iff positive le,
    sample.unwinder.entries_eq_take positive,
    sample.unwinder.entries_eq_take (Nat.le_trans positive le), Prod.mk.injEq]
  constructor
  · intro same
    exact_mod_cast same.1
  · intro same
    rw [same]
    exact ⟨rfl, rfl⟩

/-- Two fresh stacktraces show that there were entries behind the first already. -/
theorem Sample.callchain_missing_iff (positive : 1 ≤ depth) (le : depth ≤ limit) :
    (∀ fresh : List U64, limit ≤ fresh.length →
      (sample.leaves false depth ips).callchain = (sample.leaves false limit fresh).callchain) ↔
      limit = 1 := by
  simp only [callchain_missing, Prod.mk.injEq]
  constructor
  · intro same
    by_contra more
    have zeros := (same (List.replicate limit 0) (by simp)).2
    have ones := (same (List.replicate limit 1) (by simp)).2
    obtain ⟨rest, rfl⟩ : ∃ rest, limit = rest + 2 := ⟨limit - 2, by omega⟩
    have entries := zeros.symm.trans ones
    simp only [List.replicate_succ, List.drop_succ_cons, List.drop_zero, List.take_succ_cons,
      List.cons.injEq, true_and] at entries
    exact absurd entries.1 (by decide)
  · rintro rfl fresh _
    obtain rfl : depth = 1 := by omega
    exact ⟨rfl, rfl⟩

end Callchains

/-- What is known of a machine between two samples. -/
def Machine.Resolves (machine : Machine) : Prop :=
  ∃ plain, Matches machine plain ∧ plain.store.Accounted ∧ plain.store.Operated

theorem Machine.resolves_of_run {calls : List Call} {replies : List Reply} {machine : Machine}
    (ran : runAll Machine.step calls Machine.new = .ok (replies, machine)) : machine.Resolves := by
  have start : Plain.new.store.Accounted ∧ Plain.new.store.Operated :=
    ⟨accounted_empty, fun _ _ live => nomatch live⟩
  exact runs_keep matches_new start (fun _ _ _ _ sound before stepped =>
    Plain.step_operated sound before.1 before.2 stepped) ran

section Sequences

variable {machine : Machine} {sample : Sample} {limit depth : Nat} {ips : List U64}
  {result : Resolved} {next : Machine × Option Stacktrace}

/-- A machine that resolves samples still does after one. -/
theorem Sample.resolves_next {st : Option Stacktrace} (resolves : machine.Resolves)
    (ran : sample.step (machine, st) = .ok (result, next)) : next.1.Resolves := by
  obtain ⟨plain, matched, accounted, operated⟩ := resolves
  obtain ⟨⟨result, after⟩, resolved, done⟩ := bind_eq_ok_iff.mp ran
  cases done
  have agree := Machine.agree_step (.resolveCallchain st sample.uc sample.created sample.unwinder)
    machine plain matched
  have stepped : Machine.step (.resolveCallchain st sample.uc sample.created sample.unwinder)
      machine = .ok (.resolved result, after) := by
    rw [Machine.step, Call.step, resolved]
    rfl
  rw [stepped] at agree
  obtain ⟨⟨reply, plainNext⟩, plainStepped, -, matchedNext⟩ := agree.ok_left
  exact ⟨plainNext, matchedNext, Plain.step_operated matched.2 accounted operated plainStepped⟩

/-- What a sample that was resolved leaves, and when its callchain is its own. -/
theorem Sample.step_cases (resolves : machine.Resolves) (positive : 1 ≤ depth)
    (le : depth ≤ limit) (room : limit ≤ ips.length)
    (ran : sample.step (machine, some ⟨depth, some ips⟩) = .ok (result, next)) :
    ∃ walked : Bool, (walked = true ↔ sample.Accessible machine) ∧
      next.2 = some (sample.leaves walked depth ips) ∧
      (Independent limit (machine, some ⟨depth, some ips⟩) sample ↔
        limit = 1 ∨ sample.Accessible machine ∧ sample.unwinder.count limit ≤ depth) := by
  obtain ⟨plain, matched, -, operated⟩ := resolves
  obtain ⟨outcome, walked, accessible, steps⟩ := step_eq matched operated sample
  have stepped := steps depth ips positive (Nat.le_trans le room)
  rw [ran] at stepped
  cases outcome with
  | error failure => cases stepped
  | ok after =>
      obtain ⟨⟨status, flushed⟩, after⟩ := after
      cases stepped
      refine ⟨walked, accessible, rfl, ?_⟩
      have compare : Independent limit (machine, some ⟨depth, some ips⟩) sample ↔
          ∀ fresh : List U64, limit ≤ fresh.length →
            (sample.leaves walked depth ips).callchain =
              (sample.leaves walked limit fresh).callchain := by
        refine forall_congr' fun fresh => forall_congr' fun long => ?_
        dsimp only
        rw [ran, steps limit fresh (Nat.le_trans positive le) long]
        constructor
        · rintro ⟨_, _, _, _, first, second, same⟩
          cases first
          cases second
          exact Option.some.inj same
        · intro same
          exact ⟨_, _, _, _, rfl, rfl, congrArg some same⟩
      rw [compare, ← accessible]
      cases walked with
      | false =>
          rw [callchain_missing_iff positive le]
          exact ⟨.inl, fun either => either.resolve_right fun missing => nomatch missing.1⟩
      | true =>
          have each : ∀ fresh : List U64, (sample.leaves true depth ips).callchain =
              (sample.leaves true limit fresh).callchain ↔
                sample.unwinder.count limit ≤ depth :=
            fun fresh => callchain_walked_iff positive le
          simp only [each, true_and]
          constructor
          · intro fits
            exact .inr (fits ips room)
          · rintro (rfl | fits) fresh _
            · exact Nat.le_trans (sample.unwinder.count_le (Nat.le_refl 1)) positive
            · exact fits

theorem length_overwrite {written : List U64} (fits : written.length ≤ ips.length) :
    (overwrite written ips).length = ips.length := by
  rw [overwrite, List.length_append, List.length_drop]
  omega

/-- The stacktrace has as much room as before, and no greater depth. -/
theorem Sample.leaves_cases (sample : Sample) (walked : Bool) (positive : 1 ≤ depth)
    (room : depth ≤ ips.length) :
    ∃ (left : Nat) (after : List U64), sample.leaves walked depth ips = ⟨left, some after⟩ ∧
      1 ≤ left ∧ left ≤ depth ∧ after.length = ips.length ∧
      (walked = true → left = sample.unwinder.count depth) := by
  have entries := sample.unwinder.length_entries (sample.uc.uregs .ip) positive
  have bound := sample.unwinder.count_le positive
  cases walked with
  | false =>
      exact ⟨depth, _, rfl, positive, Nat.le_refl _,
        length_overwrite (Nat.le_trans positive room), nofun⟩
  | true =>
      refine ⟨sample.unwinder.count depth, _, rfl, ?_, bound,
        length_overwrite (by omega), fun _ => rfl⟩
      rw [← entries]
      exact Nat.succ_le_succ (Nat.zero_le _)

/-- The counts of the samples, and before them the depth, never increase. -/
theorem samples_independent_from {samples : List Sample} {results : List Resolved}
    {last : Machine × Option Stacktrace} (resolves : machine.Resolves) (positive : 1 ≤ depth)
    (le : depth ≤ limit) (room : limit ≤ ips.length)
    (ran : runAll Sample.step samples (machine, some ⟨depth, some ips⟩) = .ok (results, last)) :
    EachStep Sample.step (Sample.Independent limit) samples (machine, some ⟨depth, some ips⟩) ↔
      limit = 1 ∨
        EachStep Sample.step (fun state sample => sample.Accessible state.1) samples
            (machine, some ⟨depth, some ips⟩) ∧
          (depth :: samples.map fun sample => sample.unwinder.count limit).Pairwise (· ≥ ·) := by
  induction samples generalizing machine depth ips results with
  | nil => exact iff_of_true trivial (.inr ⟨trivial, List.pairwise_singleton _ _⟩)
  | cons sample samples ih =>
      obtain ⟨result, ⟨nextMachine, st⟩, rest, first, later, -⟩ := runAll_cons_eq_ok.mp ran
      obtain ⟨walked, accessible, left, independent⟩ :=
        Sample.step_cases resolves positive le room first
      obtain ⟨after, entries, leaves, afterPositive, afterLe, length, counted⟩ :=
        sample.leaves_cases walked positive (Nat.le_trans le room)
      dsimp only at left
      rw [left, leaves] at first later
      have resolvesNext := Sample.resolves_next resolves first
      have onward := ih resolvesNext afterPositive (Nat.le_trans afterLe le)
        (Nat.le_trans room (Nat.le_of_eq length.symm)) later
      rw [eachStep_cons_of_ok first, eachStep_cons_of_ok first, independent, onward, List.map_cons,
        List.pairwise_cons_cons_iff_of_trans]
      by_cases single : limit = 1
      · exact iff_of_true ⟨.inl single, .inl single⟩ (.inl single)
      · simp only [single, false_or]
        -- where the count fits into the depth, it is the depth that is left
        have replaced : sample.Accessible machine → sample.unwinder.count limit ≤ depth →
            after = sample.unwinder.count limit := by
          intro access fits
          rw [counted (accessible.mpr access)]
          exact (sample.unwinder.count_eq_iff positive le).mpr fits
        constructor
        · rintro ⟨⟨access, fits⟩, accesses, ordered⟩
          rw [replaced access fits] at ordered
          exact ⟨⟨access, accesses⟩, fits, ordered⟩
        · rintro ⟨⟨access, accesses⟩, fits, ordered⟩
          rw [← replaced access fits] at ordered
          exact ⟨⟨access, fits⟩, accesses, ordered⟩

end Sequences

/-- Samples resolved one after another through a stacktrace of depth `limit` have
the callchains of fresh stacktraces exactly when the depth is 1, or libunwind has
an address space for all of them and no sample has more entries than one before. -/
theorem samples_independent_iff {calls : List Call} {replies : List Reply} {machine : Machine}
    (ran : runAll Machine.step calls Machine.new = .ok (replies, machine)) {limit : Nat}
    (positive : 1 ≤ limit) {ips : List U64} (room : limit ≤ ips.length) {samples : List Sample}
    {results : List Resolved} {last : Machine × Option Stacktrace}
    (resolved : runAll Sample.step samples (machine, some ⟨limit, some ips⟩) =
      .ok (results, last)) :
    EachStep Sample.step (Sample.Independent limit) samples (machine, some ⟨limit, some ips⟩) ↔
      limit = 1 ∨
        EachStep Sample.step (fun state sample => sample.Accessible state.1) samples
            (machine, some ⟨limit, some ips⟩) ∧
          (samples.map fun sample => sample.unwinder.count limit).Pairwise (· ≥ ·) := by
  rw [samples_independent_from (Machine.resolves_of_run ran) positive (Nat.le_refl _) room resolved,
    List.pairwise_cons]
  have bounded : ∀ count ∈ samples.map fun sample => sample.unwinder.count limit,
      limit ≥ count := by
    intro count member
    obtain ⟨sample, -, rfl⟩ := List.mem_map.mp member
    exact sample.unwinder.count_le positive
  simp only [and_iff_right bounded]

/-- A sample of process 1 whose stack has the given frames. -/
def Sample.deep (frames : List (U64 × Bool)) : Sample :=
  ⟨.shell 1 1, true, ⟨[], 0, frames⟩⟩

theorem samples_independent_shallower :
    ∃ results last, runAll Sample.step [.deep [(7, false)], .deep []]
        (Machine.new, some ⟨2, some [0, 0]⟩) = .ok (results, last) ∧
      EachStep Sample.step (Sample.Independent 2) [.deep [(7, false)], .deep []]
        (Machine.new, some ⟨2, some [0, 0]⟩) := by
  have run : ∃ results last, runAll Sample.step [.deep [(7, false)], .deep []]
      (Machine.new, some ⟨2, some [0, 0]⟩) = .ok (results, last) := ⟨_, _, rfl⟩
  obtain ⟨results, last, resolved⟩ := run
  have start : runAll Machine.step [] Machine.new = .ok ([], Machine.new) := rfl
  have room : 2 ≤ ([0, 0] : List U64).length := Nat.le_refl 2
  refine ⟨results, last, resolved, ?_⟩
  apply (samples_independent_iff start (Nat.le_succ 1) room resolved).mpr
  refine .inr ⟨⟨.inl rfl, fun _ _ _ => ⟨.inl rfl, fun _ _ _ => trivial⟩⟩, ?_⟩
  decide

/-- A shallow stack cuts off the deeper one that is resolved after it. -/
theorem shallow_cuts_off :
    ∃ results last, runAll Sample.step [.deep [], .deep [(7, false)]]
        (Machine.new, some ⟨2, some [0, 0]⟩) = .ok (results, last) ∧
      ¬ EachStep Sample.step (Sample.Independent 2) [.deep [], .deep [(7, false)]]
        (Machine.new, some ⟨2, some [0, 0]⟩) := by
  have run : ∃ results last, runAll Sample.step [.deep [], .deep [(7, false)]]
      (Machine.new, some ⟨2, some [0, 0]⟩) = .ok (results, last) := ⟨_, _, rfl⟩
  obtain ⟨results, last, resolved⟩ := run
  have start : runAll Machine.step [] Machine.new = .ok ([], Machine.new) := rfl
  have room : 2 ≤ ([0, 0] : List U64).length := Nat.le_refl 2
  refine ⟨results, last, resolved, ?_⟩
  intro each
  rcases (samples_independent_from (Machine.resolves_of_run start) (Nat.le_succ 1) (Nat.le_refl 2)
    room resolved).mp each with single | ⟨-, ordered⟩
  · exact absurd single (by decide)
  · exact absurd ordered (by decide)

end DwBpf
