import DwBpf.Machine.Findnew

/-! # The thread table as a plain map

The lookup of `machine__findnew_thread` over a table that is a map from tids to
threads. `DwBpf.Plain.Outcome` says once what such a lookup can do, on every
path through its recursion, and `DwBpf.Plain.findnewThread_outcome` that it does
so; what holds along runs of the library is derived from these cases.
-/

namespace DwBpf

/-- The threads by tid. -/
abbrev Table := Pid → Option (Ref Thread)

/-- A machine with a plain table. -/
abbrev Plain := State Table

namespace Plain

def new : Plain := ⟨Store.empty, fun _ => none⟩

/-- Allocate a thread and put it into the table. -/
def enroll (machine : Plain) (tgid tid : Pid) : Plain where
  store := machine.store.newThread tgid tid
  table := Function.update machine.table tid (some machine.store.threads.nextRef)

/-- The lookup of a thread in a plain table. -/
def findnewThreadIn (lookup : Lookup Table) (machine : Plain) (tgid tid : Pid) :
    Except Fault (Option (Ref Thread) × Plain) :=
  match machine.table tid with
  | some th => matched lookup machine th tgid
  | none => do
      let th := machine.store.threads.nextRef
      let (ready, machine) ← Thread.initMaps lookup (enroll machine tgid tid) th
      if ready then do
        let store ← Thread.get machine.store th
        return (some th, { machine with store := store })
      else do
        let store ← Thread.put
          (machine.store.modifyThread th fun thread => { thread with node := .clear }) th
        return (none, ⟨store, Function.update machine.table tid none⟩)

def findnewThreadWithin : Nat → Lookup Table
  | 0, _, _, _ => .error .tooDeep
  | depth + 1, machine, tgid, tid =>
      findnewThreadIn (findnewThreadWithin depth) machine tgid tid

def findnewThread : Lookup Table := findnewThreadWithin 2

/-- The table leads to live threads, each under its own tid. -/
def Tabled (machine : Plain) : Prop :=
  ∀ tid th, machine.table tid = some th →
    ∃ thread, machine.store.threads.get? th = some thread ∧ thread.tid = tid

/-- Between two lookups every thread is in the table, linked, and has maps. -/
structure Valid (machine : Plain) : Prop where
  tabled : machine.Tabled
  listed : ∀ th thread, machine.store.threads.get? th = some thread →
    machine.table thread.tid = some th
  linked : ∀ th thread, machine.store.threads.get? th = some thread → thread.node = .tree
  mapped : ∀ th thread, machine.store.threads.get? th = some thread →
    ∃ maps object, thread.maps = some maps ∧ machine.store.maps.get? maps = some object

/-- The machine with a leader of the group, created if there was none. -/
def ensure (machine : Plain) (tgid : Pid) : Plain :=
  match machine.table tgid with
  | some _ => machine
  | none =>
      { store := { machine.store with
          threads := machine.store.threads.alloc
            { Thread.new tgid tgid with node := .tree, maps := some machine.store.maps.nextRef }
          maps := machine.store.maps.alloc Maps.new }
        table := Function.update machine.table tgid (some machine.store.threads.nextRef) }

/-- A thread of the group with another reference to it. -/
def retainedIn (tgid : Pid) (thread : Thread) : Thread :=
  { thread with tgid := tgid, refcnt := thread.refcnt + 1 }

variable {machine : Plain} {tgid tid : Pid} {th leader : Ref Thread} {thread object : Thread}

theorem released_comp_retainedIn (tgid : Pid) :
    (fun thread : Thread => { thread with refcnt := thread.refcnt - 1 }) ∘ retainedIn tgid =
      fun thread => { thread with tgid := tgid } := by
  funext thread
  simp [retainedIn]

theorem ensure_of_some (found : machine.table tgid = some th) : machine.ensure tgid = machine := by
  unfold ensure
  rw [found]

theorem ensure_table_of_ne (different : tid ≠ tgid) :
    (machine.ensure tgid).table tid = machine.table tid := by
  unfold ensure
  cases machine.table tgid with
  | some leader => rfl
  | none => exact Function.update_of_ne different ..

theorem tabled_modifyThread {change : Thread → Thread} (tabled : machine.Tabled)
    (keeps : ∀ thread, (change thread).tid = thread.tid) :
    Tabled (machine.modifyThread th change) := by
  intro tid found inTable
  obtain ⟨thread, live, own⟩ := tabled tid found inTable
  by_cases same : found = th
  · subst same
    refine ⟨change thread, ?_, (keeps thread).trans own⟩
    simp [State.modifyThread, Store.modifyThread, live]
  · exact ⟨thread, by simp [State.modifyThread, Store.modifyThread,
      Heap.get?_modify_of_ne _ same, live], own⟩

/-- After `ensure` the leader's tid has a thread. -/
theorem exists_leader (tabled : machine.Tabled) (tgid : Pid) :
    ∃ leader object, (machine.ensure tgid).table tgid = some leader ∧
      (machine.ensure tgid).store.threads.get? leader = some object ∧ object.tid = tgid := by
  cases found : machine.table tgid with
  | some leader =>
      obtain ⟨object, live, own⟩ := tabled tgid leader found
      rw [ensure_of_some found]
      exact ⟨leader, object, found, live, own⟩
  | none =>
      refine ⟨machine.store.threads.nextRef,
        { Thread.new tgid tgid with node := .tree, maps := some machine.store.maps.nextRef },
        ?_, ?_, rfl⟩
      · simp [ensure, found]
      · simp [ensure, found]

/-- A leader that is created gets maps of its own. -/
theorem initMaps_leader (lookup : Lookup Table) (machine : Plain) (tgid : Pid) :
    Thread.initMaps lookup (machine.enroll tgid tgid) machine.store.threads.nextRef =
      .ok (true, ⟨(machine.store.newThread tgid tgid).newMaps machine.store.threads.nextRef,
        (machine.enroll tgid tgid).table⟩) := by
  simp only [Thread.initMaps, leaderMaps, enroll, Store.newThread, Store.newMaps, deref,
    Heap.get?_alloc_nextRef, ok_bind, Thread.new, ↓reduceIte, Option.isSome_some, pure_eq_ok,
    Store.modifyThread, Heap.modify_alloc_nextRef]

/-- The lookup of a leader by `(tgid, tgid)` recurses no further. -/
theorem findnewThreadIn_leader (lookup : Lookup Table) (tabled : machine.Tabled)
    (found : (machine.ensure tgid).table tgid = some leader) :
    findnewThreadIn lookup machine tgid tgid =
      .ok (some leader, (machine.ensure tgid).modifyThread leader (retainedIn tgid)) := by
  unfold findnewThreadIn
  cases entry : machine.table tgid with
  | some th =>
      rw [ensure_of_some entry] at found ⊢
      obtain rfl : th = leader := Option.some.inj (entry.symm.trans found)
      obtain ⟨object, live, own⟩ := tabled tgid th found
      simp only [matched, updateThreadTgid, deref_of_get? live, ok_bind, own]
      by_cases member : tgid = object.tgid
      · have same : machine.store.threads.modify th
            (fun thread => { thread with refcnt := thread.refcnt + 1 }) =
            machine.store.threads.modify th (retainedIn tgid) := by
          apply Heap.modify_congr
          intro stored isLive
          obtain rfl : object = stored := Option.some.inj (live.symm.trans isLive)
          simp [retainedIn, member]
        simp only [← member, ↓reduceIte, pure_eq_ok, ok_bind, Thread.get_of_live live,
          Store.modifyThread, State.modifyThread, same]
      · have moved : (machine.modifyThread th fun thread =>
            { thread with tgid := tgid }).store.threads.get? th =
            some { object with tgid := tgid } := by
          simp [live]
        simp only [member, ↓reduceIte, pure_eq_ok, ok_bind, Thread.get_of_live moved]
        simp only [State.modifyThread, Store.modifyThread_modifyThread]
        rfl
  | none =>
      have fresh : (machine.ensure tgid).table tgid = some machine.store.threads.nextRef := by
        simp [ensure, entry]
      obtain rfl : machine.store.threads.nextRef = leader :=
        Option.some.inj (fresh.symm.trans found)
      simp only [initMaps_leader, ok_bind, ↓reduceIte]
      simp only [Thread.get, deref, ok_bind, Store.newThread,
        Store.newMaps, Store.modifyThread, Heap.modify_alloc_nextRef, Heap.get?_alloc_nextRef,
        pure_eq_ok, State.modifyThread, ensure, entry, enroll, Thread.new, retainedIn]

theorem ensure_modifyThread (live : machine.store.threads.get? th = some thread)
    (change : Thread → Thread) :
    ensure (machine.modifyThread th change) tgid =
      (machine.ensure tgid).modifyThread th change := by
  unfold ensure
  simp only [State.modifyThread_table]
  cases machine.table tgid with
  | some leader => rfl
  | none =>
      simp only [State.modifyThread, Store.modifyThread, Heap.nextRef_modify,
        Heap.alloc_modify live]

/-- Making sure of a leader leaves the other threads alone. -/
theorem get?_ensure (live : machine.store.threads.get? th = some thread) (tgid : Pid) :
    (machine.ensure tgid).store.threads.get? th = some thread := by
  unfold ensure
  cases machine.table tgid with
  | some leader => exact live
  | none => exact Heap.get?_alloc_of_some _ live

theorem get?_maps_ensure {maps : Ref Maps} {stored : Maps}
    (live : machine.store.maps.get? maps = some stored) (tgid : Pid) :
    (machine.ensure tgid).store.maps.get? maps = some stored := by
  unfold ensure
  cases machine.table tgid with
  | some leader => exact live
  | none => exact Heap.get?_alloc_of_some _ live

/-- A thread `th` of the table is looked up for a group it is not in, whose
leader is `leader`. -/
structure Moves (machine : Plain) (tgid tid : Pid) (th : Ref Thread) (thread : Thread)
    (leader : Ref Thread) (object : Thread) : Prop where
  member : tid ≠ tgid
  found : machine.table tid = some th
  live : machine.store.threads.get? th = some thread
  moves : thread.tgid ≠ tgid
  led : (machine.ensure tgid).table tgid = some leader
  leads : (machine.ensure tgid).store.threads.get? leader = some object

/-- Such a thread has to leave the maps `old` for the maps `new` of its leader. -/
structure Leaves (machine : Plain) (tgid tid : Pid) (th : Ref Thread) (leader : Ref Thread)
    (object : Thread) (old new : Ref Maps) (left : Maps) : Prop where
  moves : ∃ thread, Moves machine tgid tid th thread leader object ∧ thread.maps = some old
  shares : object.maps = some new
  differs : old ≠ new
  stored : machine.store.maps.get? old = some left

/-- A thread that is not in the table is looked up for a group led by `leader`,
whose maps are `new`. -/
structure Enters (machine : Plain) (tgid tid : Pid) (leader : Ref Thread) (object : Thread)
    (new : Ref Maps) : Prop where
  member : tid ≠ tgid
  absent : machine.table tid = none
  led : ((machine.enroll tgid tid).ensure tgid).table tgid = some leader
  leads : ((machine.enroll tgid tid).ensure tgid).store.threads.get? leader = some object
  shares : object.maps = some new

/-- The thread `th` takes part in the group and the maps of its leader. -/
def joined (machine : Plain) (tgid : Pid) (th leader : Ref Thread) (new : Ref Maps) : Plain :=
  let shared := machine.store.modifyMaps new fun maps => { maps with refcnt := maps.refcnt + 1 }
  let store := shared.modifyThread th fun thread => { retainedIn tgid thread with maps := some new }
  ⟨store.modifyThread leader fun thread => { thread with tgid := tgid }, machine.table⟩

/-- The outcomes of a lookup of `(tgid, tid)`. The references to a leader taken
by the lookup are given back, except where the thread already shares its maps. -/
inductive Outcome (machine : Plain) (tgid tid : Pid) :
    Except Fault (Option (Ref Thread) × Plain) → Prop
  | leader {th : Ref Thread} (self : tid = tgid)
      (found : (machine.ensure tgid).table tgid = some th) :
      Outcome machine tgid tid
        (.ok (some th, (machine.ensure tgid).modifyThread th (retainedIn tgid)))
  | stays {th : Ref Thread} {thread : Thread} (member : tid ≠ tgid)
      (found : machine.table tid = some th)
      (live : machine.store.threads.get? th = some thread) (stays : thread.tgid = tgid) :
      Outcome machine tgid tid (.ok (some th, machine.modifyThread th (retainedIn tgid)))
  | shares {th leader : Ref Thread} {thread object : Thread}
      (moves : Moves machine tgid tid th thread leader object)
      (shares : thread.maps = object.maps) :
      Outcome machine tgid tid (.ok (some th,
        ((machine.ensure tgid).modifyThread th (retainedIn tgid)).modifyThread leader
          (retainedIn tgid)))
  | leaves {th leader : Ref Thread} {object : Thread} {old new : Ref Maps} {left : Maps}
      (leaves : Leaves machine tgid tid th leader object old new left)
      (empty : left.entries.toList = []) (counted : object.refcnt ≠ 0) :
      Outcome machine tgid tid (.ok (some th, joined
        ⟨(machine.ensure tgid).store.dropMaps old left, (machine.ensure tgid).table⟩
        tgid th leader new))
  | enters {leader : Ref Thread} {object : Thread} {new : Ref Maps}
      (enters : Enters machine tgid tid leader object new) (counted : object.refcnt ≠ 0) :
      Outcome machine tgid tid (.ok (some machine.store.threads.nextRef, joined
        ((machine.enroll tgid tid).ensure tgid) tgid machine.store.threads.nextRef leader new))
  | broken {th leader : Ref Thread} {object : Thread} {old new : Ref Maps} {left : Maps}
      (leaves : Leaves machine tgid tid th leader object old new left)
      (occupied : left.entries.toList ≠ []) :
      Outcome machine tgid tid (.error (.assertion .brokenMaps))
  | leavesWrapped {th leader : Ref Thread} {object : Thread} {old new : Ref Maps} {left : Maps}
      (leaves : Leaves machine tgid tid th leader object old new left)
      (empty : left.entries.toList = []) (wrapped : object.refcnt = 0) :
      Outcome machine tgid tid (.error .linkedPut)
  | entersWrapped {leader : Ref Thread} {object : Thread} {new : Ref Maps}
      (enters : Enters machine tgid tid leader object new) (wrapped : object.refcnt = 0) :
      Outcome machine tgid tid (.error .linkedPut)

section Store

variable {store : Store} {old new : Ref Maps} {left shared : Maps}

theorem updateThreadMaps_of_shared (live : store.threads.get? th = some thread)
    (leads : store.threads.get? leader = some object) (has : object.maps = some new)
    (shares : thread.maps = object.maps) : updateThreadMaps store th leader = .ok store := by
  simp only [updateThreadMaps, deref_of_get? leads, ok_bind, has, reduceCtorEq, ↓reduceIte,
    deref_of_get? live, shares, pure_eq_ok]

/-- A thread that has other maps than its leader takes those of the leader, unless its own
have ranges or the reference to the leader was the last one. -/
theorem updateThreadMaps_of_differs (live : store.threads.get? th = some thread)
    (leads : store.threads.get? leader = some object) (different : leader ≠ th)
    (linked : object.node = .tree) (has : thread.maps = some old) (shares : object.maps = some new)
    (differs : old ≠ new) (stored : store.maps.get? old = some left)
    (newStored : store.maps.get? new = some shared) :
    updateThreadMaps store th leader =
      if left.entries.toList ≠ [] then .error (.assertion .brokenMaps)
      else if object.refcnt - 1 = 0 then .error .linkedPut
      else .ok ((((store.dropMaps old left).modifyMaps new
        fun maps => { maps with refcnt := maps.refcnt + 1 }).modifyThread th
          fun thread => { thread with maps := some new }).modifyThread leader
            fun thread => { thread with refcnt := thread.refcnt - 1 }) := by
  have kept : (store.dropMaps old left).maps.get? new = some shared := by
    unfold Store.dropMaps
    split
    · rw [Heap.get?_free, if_neg differs.symm, newStored]
    · rw [Heap.get?_modify_of_ne _ differs.symm, newStored]
  simp only [updateThreadMaps, deref_of_get? leads, ok_bind, shares, reduceCtorEq, ↓reduceIte,
    deref_of_get? live, has, Option.some.injEq, differs, putEmptyMaps, deref_of_get? stored]
  by_cases empty : left.entries.toList = []
  · have still : (((store.dropMaps old left).modifyMaps new
        fun maps => { maps with refcnt := maps.refcnt + 1 }).modifyThread th
          fun thread => { thread with maps := some new }).threads.get? leader = some object := by
      rw [Store.modifyThread_threads, Heap.get?_modify_of_ne _ different]
      exact leads
    simp only [Maps.empty_iff.mpr empty, ↓reduceIte, Maps.put_of_empty stored empty, ok_bind,
      Maps.get_of_live kept, Thread.put_of_linked still linked, empty, ne_eq, not_true_eq_false]
  · have occupied : left.empty = false := by
      exact Bool.eq_false_iff.mpr (mt Maps.empty_iff.mp empty)
    simp [occupied, empty]

/-- A new thread takes the maps of its leader. -/
theorem shareMaps_of_live (leads : store.threads.get? leader = some object)
    (different : leader ≠ th)
    (linked : object.node = .tree) (shares : object.maps = some new)
    (newStored : store.maps.get? new = some shared) :
    shareMaps store th leader =
      if object.refcnt - 1 = 0 then .error .linkedPut
      else .ok (((store.modifyMaps new
        fun maps => { maps with refcnt := maps.refcnt + 1 }).modifyThread th
          fun thread => { thread with maps := some new }).modifyThread leader
            fun thread => { thread with refcnt := thread.refcnt - 1 }) := by
  have still : ((store.modifyMaps new
      fun maps => { maps with refcnt := maps.refcnt + 1 }).modifyThread th
        fun thread => { thread with maps := some new }).threads.get? leader = some object := by
    rw [Store.modifyThread_threads, Heap.get?_modify_of_ne _ different]
    exact leads
  simp only [shareMaps, deref_of_get? leads, ok_bind, shares, Maps.get_of_live newStored,
    Thread.put_of_linked still linked]

end Store

theorem tabled_enroll (tabled : machine.Tabled) : Tabled (machine.enroll tgid tid) := by
  intro sought found inTable
  by_cases same : sought = tid
  · subst same
    obtain rfl : machine.store.threads.nextRef = found := by
      simpa [enroll] using inTable
    exact ⟨_, Heap.get?_alloc_nextRef _ _, rfl⟩
  · have before : machine.table sought = some found := by
      simpa [enroll, Function.update_of_ne same] using inTable
    obtain ⟨thread, live, own⟩ := tabled sought found before
    exact ⟨thread, Heap.get?_alloc_of_some _ live, own⟩

/-- The thread is linked and has live maps. -/
def Settled (machine : Plain) (thread : Thread) : Prop :=
  thread.node = .tree ∧ ∃ maps object, thread.maps = some maps ∧
    machine.store.maps.get? maps = some object

theorem Valid.settled (valid : machine.Valid) (live : machine.store.threads.get? th = some thread) :
    machine.Settled thread :=
  ⟨valid.linked th thread live, valid.mapped th thread live⟩

/-- The leader of a group, found or created, is settled. -/
theorem settled_leader
    (settled : ∀ th thread, machine.table tgid = some th →
      machine.store.threads.get? th = some thread → machine.Settled thread)
    (led : (machine.ensure tgid).table tgid = some leader)
    (leads : (machine.ensure tgid).store.threads.get? leader = some object) :
    (machine.ensure tgid).Settled object := by
  cases found : machine.table tgid with
  | some th =>
      rw [ensure_of_some found] at led leads ⊢
      exact settled leader object led leads
  | none =>
      obtain rfl : machine.store.threads.nextRef = leader := by
        simpa [ensure, found] using led
      obtain rfl : _ = object := by
        simpa [ensure, found] using leads
      refine ⟨rfl, machine.store.maps.nextRef, Maps.new, rfl, ?_⟩
      simp [ensure, found]

/-- A thread that moves is not the leader it moves to. -/
theorem Moves.different (moves : Moves machine tgid tid th thread leader object)
    (tabled : machine.Tabled) : leader ≠ th := by
  rintro rfl
  obtain ⟨stored, live, own⟩ := tabled tid leader moves.found
  obtain ⟨found, object', led, leads, leaderOwn⟩ := exists_leader tabled tgid
  obtain rfl : leader = found := Option.some.inj (moves.led.symm.trans led)
  rw [get?_ensure live, Option.some.injEq] at leads
  exact moves.member (by rw [← own, leads, leaderOwn])

/-- The machine when the lookup of the leader returns to the lookup of a thread
that moves. -/
def withLeader (machine : Plain) (tgid : Pid) (th leader : Ref Thread) : Plain :=
  ((machine.ensure tgid).modifyThread th fun thread => { thread with tgid := tgid }).modifyThread
    leader (retainedIn tgid)

/-- A thread that moves to a process looks up the leader first, which finds or makes it. -/
theorem matched_of_moves (valid : machine.Valid)
    (moves : Moves machine tgid tid th thread leader object) :
    matched (findnewThreadWithin 1) machine th tgid = (do
      let store ← updateThreadMaps (machine.withLeader tgid th leader).store th leader
      let store ← Thread.get store th
      return (some th, ⟨store, (machine.ensure tgid).table⟩)) := by
  obtain ⟨stored, live, own⟩ := valid.tabled tid th moves.found
  obtain rfl : thread = stored := Option.some.inj (moves.live.symm.trans live)
  have asked : findnewThreadWithin 1
      (machine.modifyThread th fun thread => { thread with tgid := tgid }) tgid tgid =
      .ok (some leader, machine.withLeader tgid th leader) := by
    have led : (ensure (machine.modifyThread th fun thread => { thread with tgid := tgid })
        tgid).table tgid = some leader := by
      rw [ensure_modifyThread live]
      exact moves.led
    have tabled : Tabled (machine.modifyThread th fun thread => { thread with tgid := tgid }) :=
      tabled_modifyThread valid.tabled fun _ => rfl
    rw [findnewThreadWithin, findnewThreadIn_leader _ tabled led, ensure_modifyThread live,
      withLeader]
  have notLeader : tgid ≠ thread.tid := by
    rw [own]
    exact moves.member.symm
  simp only [matched, updateThreadTgid, deref_of_get? live, ok_bind, moves.moves.symm, ↓reduceIte,
    notLeader, asked]
  cases updateThreadMaps (machine.withLeader tgid th leader).store th leader with
  | error failure => rfl
  | ok store => rfl

/-- So its lookup ends with the maps of the leader, or in a fault. -/
theorem outcome_of_moves (valid : machine.Valid)
    (moves : Moves machine tgid tid th thread leader object) :
    Outcome machine tgid tid (matched (findnewThreadWithin 1) machine th tgid) := by
  have different := moves.different valid.tabled
  have live : (machine.withLeader tgid th leader).store.threads.get? th =
      some { thread with tgid := tgid } := by
    simp [withLeader, Heap.get?_modify_of_ne _ different.symm, get?_ensure moves.live]
  have leads : (machine.withLeader tgid th leader).store.threads.get? leader =
      some (retainedIn tgid object) := by
    simp [withLeader, Heap.get?_modify_of_ne _ different, moves.leads]
  obtain ⟨linked, new, shared, shares, newStored⟩ := settled_leader
    (fun _ _ _ live => valid.settled live) moves.led moves.leads
  obtain ⟨old, left, has, stored⟩ := valid.mapped th thread moves.live
  have oldStored : (machine.ensure tgid).store.maps.get? old = some left :=
    get?_maps_ensure stored tgid
  rw [matched_of_moves valid moves]
  by_cases same : thread.maps = object.maps
  · rw [updateThreadMaps_of_shared live leads shares same, ok_bind, Thread.get_of_live live]
    have result := Outcome.shares moves same
    simp only [State.modifyThread, Store.modifyThread] at result
    simp only [ok_bind, pure_eq_ok, withLeader, State.modifyThread, Store.modifyThread,
      Heap.modify_interleave different]
    exact result
  · have differs : old ≠ new := by
      rintro rfl
      exact same (has.trans shares.symm)
    have leaves : Leaves machine tgid tid th leader object old new left :=
      ⟨⟨thread, moves, has⟩, shares, differs, stored⟩
    rw [updateThreadMaps_of_differs live leads different linked has shares differs oldStored
      newStored]
    by_cases empty : left.entries.toList = []
    · simp only [empty, ne_eq, not_true_eq_false, ↓reduceIte, retainedIn, BitVec.add_sub_cancel]
      by_cases wrapped : object.refcnt = 0
      · simp only [wrapped, ↓reduceIte]
        exact .leavesWrapped leaves empty wrapped
      · have result := Outcome.leaves leaves empty wrapped
        simp only [wrapped, ↓reduceIte, ok_bind]
        rw [Thread.get_of_live]
        swap
        · rw [Store.modifyThread_threads, Heap.get?_modify_of_ne _ different.symm,
            Store.modifyThread_threads, Heap.get?_modify_self]
          exact congrArg _ live
        simp only [joined, Store.modifyThread, Store.modifyMaps, Store.dropMaps] at result
        simp only [ok_bind, pure_eq_ok, withLeader, State.modifyThread,
          Store.modifyThread, Store.modifyMaps, Store.dropMaps, Heap.modify_interleave different,
          Heap.modify_modify, released_comp_retainedIn]
        exact result
    · simp only [empty, ne_eq, not_false_eq_true, ↓reduceIte]
      exact .broken leaves empty

/-- A member that is in the table stays where it is, or moves. -/
theorem outcome_of_found (valid : machine.Valid) (member : tid ≠ tgid)
    (found : machine.table tid = some th) :
    Outcome machine tgid tid (matched (findnewThreadWithin 1) machine th tgid) := by
  obtain ⟨thread, live, own⟩ := valid.tabled tid th found
  by_cases stays : thread.tgid = tgid
  · have same : machine.store.modifyThread th
        (fun thread => { thread with refcnt := thread.refcnt + 1 }) =
        machine.store.modifyThread th (retainedIn tgid) := by
      unfold Store.modifyThread
      congr 1
      apply Heap.modify_congr
      intro stored isLive
      obtain rfl : thread = stored := Option.some.inj (live.symm.trans isLive)
      simp [retainedIn, stays]
    simp only [matched, updateThreadTgid, deref_of_get? live, ok_bind, stays, ↓reduceIte,
      pure_eq_ok, Thread.get_of_live live, same]
    exact .stays member found live stays
  · obtain ⟨leader, object, led, leads, -⟩ := exists_leader valid.tabled tgid
    exact outcome_of_moves valid ⟨member, found, live, stays, led, leads⟩

/-- The machine when `thread__init_maps` returns for a thread created in a group. -/
def shared (machine : Plain) (tgid : Pid) (th leader : Ref Thread) (new : Ref Maps) : Plain :=
  ⟨(((machine.store.modifyThread leader (retainedIn tgid)).modifyMaps new
      fun maps => { maps with refcnt := maps.refcnt + 1 }).modifyThread th
        fun thread => { thread with maps := some new }).modifyThread leader
          fun thread => { thread with refcnt := thread.refcnt - 1 }, machine.table⟩

theorem get?_shared (different : leader ≠ th) (live : machine.store.threads.get? th = some thread)
    (new : Ref Maps) :
    (machine.shared tgid th leader new).store.threads.get? th =
      some { thread with maps := some new } := by
  simp [shared, Heap.get?_modify_of_ne _ different.symm, live]

/-- The new thread was created in the group, so that joining it changes its maps only. -/
theorem get_shared (different : leader ≠ th) (live : machine.store.threads.get? th = some thread)
    (group : thread.tgid = tgid) (new : Ref Maps) :
    Thread.get (machine.shared tgid th leader new).store th =
      .ok (machine.joined tgid th leader new).store := by
  have same : machine.store.threads.modify th
      (fun thread => { retainedIn tgid thread with maps := some new }) =
      machine.store.threads.modify th
        ((fun thread => { thread with refcnt := thread.refcnt + 1 }) ∘
          fun thread => { thread with maps := some new }) := by
    apply Heap.modify_congr
    intro stored isLive
    obtain rfl : thread = stored := Option.some.inj (live.symm.trans isLive)
    simp [retainedIn, group]
  rw [Thread.get_of_live (get?_shared different live new)]
  simp only [shared, joined, Store.modifyThread, Store.modifyMaps,
    Heap.modify_interleave different.symm, Heap.modify_modify, released_comp_retainedIn, same]
  rw [Heap.modify_comm different]

/-- A thread that is not in the table is entered, and then given the maps of its leader,
which is found or made. -/
theorem initMaps_of_absent (valid : machine.Valid) (member : tid ≠ tgid)
    (absent : machine.table tid = none) :
    ∃ leader object new, Enters machine tgid tid leader object new ∧
      leader ≠ machine.store.threads.nextRef ∧
      Thread.initMaps (findnewThreadWithin 1) (machine.enroll tgid tid)
        machine.store.threads.nextRef =
        if object.refcnt = 0 then .error .linkedPut
        else .ok (true, ((machine.enroll tgid tid).ensure tgid).shared tgid
          machine.store.threads.nextRef leader new) := by
  have tabled : Tabled (machine.enroll tgid tid) := tabled_enroll valid.tabled
  obtain ⟨leader, object, led, leads, own⟩ := exists_leader tabled tgid
  have enrolled : (machine.enroll tgid tid).store.threads.get? machine.store.threads.nextRef =
      some { Thread.new tgid tid with node := .tree } := Heap.get?_alloc_nextRef _ _
  have different : leader ≠ machine.store.threads.nextRef := by
    rintro rfl
    rw [get?_ensure enrolled, Option.some.injEq] at leads
    exact member (by rw [← own, ← leads]; rfl)
  have settled : ∀ th thread, (machine.enroll tgid tid).table tgid = some th →
      (machine.enroll tgid tid).store.threads.get? th = some thread →
      (machine.enroll tgid tid).Settled thread := by
    intro th thread found live
    have before : machine.table tgid = some th := by
      simpa [enroll, Function.update_of_ne member.symm] using found
    obtain ⟨stored, wasLive, -⟩ := valid.tabled tgid th before
    have still : (machine.enroll tgid tid).store.threads.get? th = some stored :=
      Heap.get?_alloc_of_some _ wasLive
    obtain rfl : stored = thread := Option.some.inj (still.symm.trans live)
    exact valid.settled wasLive
  obtain ⟨linked, new, object', shares, newStored⟩ := settled_leader settled led leads
  have asked : findnewThreadWithin 1 (machine.enroll tgid tid) tgid tgid =
      .ok (some leader, ((machine.enroll tgid tid).ensure tgid).modifyThread leader
        (retainedIn tgid)) := findnewThreadIn_leader _ tabled led
  have retained : (((machine.enroll tgid tid).ensure tgid).modifyThread leader
      (retainedIn tgid)).store.threads.get? leader = some (retainedIn tgid object) := by
    simp [leads]
  have ready : (((machine.enroll tgid tid).ensure tgid).shared tgid machine.store.threads.nextRef
      leader new).store.threads.get? machine.store.threads.nextRef =
      some { Thread.new tgid tid with node := .tree, maps := some new } :=
    get?_shared different (get?_ensure enrolled tgid) new
  refine ⟨leader, object, new, ⟨member, absent, led, leads, shares⟩, different, ?_⟩
  simp only [Thread.initMaps, deref_of_get? enrolled, ok_bind, leaderMaps, Thread.new,
    if_neg member.symm, asked, shareMaps_of_live retained different linked shares newStored,
    retainedIn, BitVec.add_sub_cancel]
  split
  · rfl
  · simp only [shared, Thread.new] at ready
    simp only [ok_bind, pure_eq_ok, State.modifyThread, shared, deref_of_get? ready,
      Option.isSome_some]

theorem outcome_of_absent (valid : machine.Valid) (member : tid ≠ tgid)
    (absent : machine.table tid = none) :
    Outcome machine tgid tid (findnewThreadIn (findnewThreadWithin 1) machine tgid tid) := by
  obtain ⟨leader, object, new, enters, different, initialised⟩ :=
    initMaps_of_absent valid member absent
  have enrolled : (machine.enroll tgid tid).store.threads.get? machine.store.threads.nextRef =
      some { Thread.new tgid tid with node := .tree } := Heap.get?_alloc_nextRef _ _
  have retained : Thread.get (((machine.enroll tgid tid).ensure tgid).shared tgid
      machine.store.threads.nextRef leader new).store machine.store.threads.nextRef =
      .ok (((machine.enroll tgid tid).ensure tgid).joined tgid
        machine.store.threads.nextRef leader new).store :=
    get_shared different (get?_ensure enrolled tgid) rfl new
  simp only [findnewThreadIn, absent, initialised]
  by_cases wrapped : object.refcnt = 0
  · simp only [wrapped, ↓reduceIte, error_bind]
    exact .entersWrapped enters wrapped
  · simp only [wrapped, ↓reduceIte, ok_bind, retained, pure_eq_ok]
    exact .enters enters wrapped

/-- A lookup in a valid machine has one of the outcomes. -/
theorem findnewThread_outcome (valid : machine.Valid) (tgid tid : Pid) :
    Outcome machine tgid tid (findnewThread machine tgid tid) := by
  by_cases self : tid = tgid
  · subst self
    obtain ⟨leader, object, led, -, -⟩ := exists_leader valid.tabled tid
    rw [findnewThread, findnewThreadWithin, findnewThreadIn_leader _ valid.tabled led]
    exact .leader rfl led
  · cases entry : machine.table tid with
    | some th =>
        simp only [findnewThread, findnewThreadWithin, findnewThreadIn, entry]
        exact outcome_of_found valid self entry
    | none => exact outcome_of_absent valid self entry

end Plain

end DwBpf
