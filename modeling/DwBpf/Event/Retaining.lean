import DwBpf.Event.Conservation
import DwBpf.Event.Lookup

/-! # What a lookup does to the counters of threads

The lookup of a thread takes a reference to it for its caller. The references that it
takes to a leader on the way are given back, but for the one path on which thread and
leader have the same maps already. So it takes one reference in all exactly where it is
balanced, and neither counter of the two is about to wrap around or has done so
(`DwBpf.lookup_retains_iff`).
-/

namespace DwBpf

/-- From one store to the next the thread `th` has gained a reference, or was created with
one for the table and one for the caller. A leader that was created has that of the table,
and all other counters are as they were. -/
structure Store.Retains (store next : Store) (tgid : Pid) (th : Ref Thread) : Prop where
  gained : ∀ thread, store.threads.get? th = some thread → ∃ after,
    next.threads.get? th = some after ∧ after.refcnt.toNat = thread.refcnt.toNat + 1
  created : store.threads.get? th = none → ∃ after,
    next.threads.get? th = some after ∧ after.refcnt = 2
  led : ∀ ref after, next.threads.get? ref = some after → store.threads.get? ref = none →
    ref ≠ th → after.tid = tgid ∧ after.refcnt = 1
  others : ∀ ref thread, store.threads.get? ref = some thread → ref ≠ th → ∃ after,
    next.threads.get? ref = some after ∧ after.refcnt = thread.refcnt

/-- The counter of the thread `tid` has room for another reference. -/
def Store.Roomy (store : Store) (tid : Pid) : Prop :=
  ∀ th thread, store.threads.get? th = some thread → thread.tid = tid →
    thread.refcnt ≠ BitVec.allOnes 32

namespace Plain

variable {machine next : Plain} {tgid tid : Pid} {th leader : Ref Thread} {thread object : Thread}
  {store : Store} {base : Heap Thread}

/-- The threads of a store and new ones with one reference each: `th`, and leaders. -/
structure Grown (store : Store) (base : Heap Thread) (tgid : Pid) (th : Ref Thread) : Prop where
  kept : ∀ ref thread, store.threads.get? ref = some thread → base.get? ref = some thread
  came : ∀ ref thread, base.get? ref = some thread → store.threads.get? ref = none →
    thread.refcnt = 1 ∧ (ref = th ∨ thread.tid = tgid)

theorem Grown.refl (store : Store) (tgid : Pid) (th : Ref Thread) :
    Grown store store.threads tgid th where
  kept := fun _ _ live => live
  came := by
    intro ref thread live absent
    rw [absent] at live
    cases live

/-- A leader that is made has one reference. -/
theorem Grown.ensure (grown : Grown store machine.store.threads tgid th) :
    Grown store (machine.ensure tgid).store.threads tgid th := by
  unfold Plain.ensure
  cases machine.table tgid with
  | some leader => exact grown
  | none =>
      constructor
      · intro ref thread live
        exact Heap.get?_alloc_of_some _ (grown.kept ref thread live)
      · intro ref thread live absent
        rcases Heap.get?_alloc_eq_some.mp live with ⟨-, rfl⟩ | wasLive
        · exact ⟨rfl, .inr rfl⟩
        · exact grown.came ref thread wasLive absent

theorem grown_enroll (machine : Plain) (tgid tid : Pid) :
    Grown machine.store (machine.enroll tgid tid).store.threads tgid
      machine.store.threads.nextRef := by
  constructor
  · intro ref thread live
    exact Heap.get?_alloc_of_some _ live
  · intro ref thread live absent
    rcases Heap.get?_alloc_eq_some.mp live with ⟨same, rfl⟩ | wasLive
    · exact ⟨rfl, .inl same⟩
    · rw [absent] at wasLive
      cases wasLive

/-- What the counters depend on. -/
def tally (thread : Thread) : Pid × U32 := (thread.tid, thread.refcnt)

/-- The counters after a change of one thread that takes a reference to it. -/
def Tallies (base after : Heap Thread) (th : Ref Thread) : Prop :=
  ∀ ref, (after.get? ref).map tally =
    (base.get? ref).map fun thread =>
      (thread.tid, if ref = th then thread.refcnt + 1 else thread.refcnt)

/-- The thread that is returned has one more reference, and all others have as many as
before. -/
theorem tallies_modify {change : Thread → Thread}
    (retains : ∀ thread, tally (change thread) = (thread.tid, thread.refcnt + 1)) :
    Tallies base (base.modify th change) th := by
  intro ref
  rw [Heap.get?_modify]
  by_cases same : ref = th
  · subst same
    rw [if_pos rfl, Option.map_map]
    congr 1
    funext thread
    rw [Function.comp_apply, retains, if_pos rfl]
  · rw [if_neg same]
    congr 1
    funext thread
    rw [if_neg same]
    rfl

theorem Tallies.modify {after : Heap Thread} {change : Thread → Thread} {other : Ref Thread}
    (tallies : Tallies base after th) (keeps : ∀ thread, tally (change thread) = tally thread) :
    Tallies base (after.modify other change) th := by
  intro ref
  rw [← tallies ref, Heap.get?_modify]
  split
  · rename_i same
    rw [Option.map_map, same]
    congr 1
    funext thread
    exact keeps thread
  · rfl

theorem tallies_joined (machine : Plain) (tgid : Pid) (th leader : Ref Thread) (new : Ref Maps) :
    Tallies machine.store.threads (machine.joined tgid th leader new).store.threads th := by
  have taken : Tallies machine.store.threads (machine.store.threads.modify th fun thread =>
      { retainedIn tgid thread with maps := some new }) th := tallies_modify fun _ => rfl
  exact taken.modify fun _ => rfl

theorem Tallies.get? {after : Heap Thread} (tallies : Tallies base after th) {ref : Ref Thread}
    (live : base.get? ref = some thread) : ∃ found, after.get? ref = some found ∧
      found.refcnt = if ref = th then thread.refcnt + 1 else thread.refcnt := by
  have same := tallies ref
  rw [live, Option.map_some, Option.map_eq_some_iff] at same
  obtain ⟨found, isFound, equal⟩ := same
  exact ⟨found, isFound, congrArg Prod.snd equal⟩

theorem toNat_succ_iff (count : U32) :
    (count + 1).toNat = count.toNat + 1 ↔ count ≠ BitVec.allOnes 32 := by
  have bound := count.isLt
  rw [BitVec.toNat_add, ne_eq, ← BitVec.toNat_inj, BitVec.toNat_allOnes]
  change (count.toNat + 1) % 2 ^ 32 = _ ↔ _
  omega

/-- Taking a reference to one thread of those goes wrong only if it was there and its
counter wraps around. -/
theorem Grown.retains_iff (grown : Grown store base tgid th) (present : base.get? th = some object)
    (tallies : Tallies base next.store.threads th) :
    store.Retains next.store tgid th ↔
      ∀ thread, store.threads.get? th = some thread → thread.refcnt ≠ BitVec.allOnes 32 := by
  constructor
  · intro retains thread live
    obtain ⟨after, isAfter, more⟩ := retains.gained thread live
    obtain ⟨found, isFound, refcnt⟩ := tallies.get? (grown.kept th thread live)
    cases isAfter.symm.trans isFound
    rw [if_pos rfl] at refcnt
    rw [refcnt] at more
    exact (toNat_succ_iff _).mp more
  · intro room
    refine ⟨?_, ?_, ?_, ?_⟩
    · intro thread live
      obtain ⟨found, isFound, refcnt⟩ := tallies.get? (grown.kept th thread live)
      rw [if_pos rfl] at refcnt
      refine ⟨found, isFound, ?_⟩
      rw [refcnt]
      exact (toNat_succ_iff _).mpr (room thread live)
    · intro absent
      obtain ⟨found, isFound, refcnt⟩ := tallies.get? present
      rw [if_pos rfl, (grown.came th object present absent).1] at refcnt
      exact ⟨found, isFound, refcnt⟩
    · intro ref after live absent other
      have same := tallies ref
      rw [live, Option.map_some, eq_comm, Option.map_eq_some_iff] at same
      obtain ⟨before, wasLive, equal⟩ := same
      obtain ⟨one, isLeader⟩ := grown.came ref before wasLive absent
      rw [if_neg other, one] at equal
      refine ⟨?_, (congrArg Prod.snd equal).symm⟩
      exact (congrArg Prod.fst equal).symm.trans (isLeader.resolve_left other)
    · intro ref thread live other
      obtain ⟨found, isFound, refcnt⟩ := tallies.get? (grown.kept ref thread live)
      rw [if_neg other] at refcnt
      exact ⟨found, isFound, refcnt⟩

theorem roomy_of_own (own : ∀ ref thread, store.threads.get? ref = some thread →
    (ref = th ↔ thread.tid = tid)) :
    (∀ thread, store.threads.get? th = some thread → thread.refcnt ≠ BitVec.allOnes 32) ↔
      store.Roomy tid := by
  constructor
  · intro room ref thread live isTid
    obtain rfl := (own ref thread live).mpr isTid
    exact room thread live
  · intro roomy thread live
    exact roomy th thread live ((own th thread live).mp rfl)

theorem own_of_found (sound : Sound none machine) (found : machine.table tid = some th)
    (ref : Ref Thread) (thread : Thread) (live : machine.store.threads.get? ref = some thread) :
    ref = th ↔ thread.tid = tid := by
  constructor
  · rintro rfl
    obtain ⟨stored, isLive, own⟩ := sound.tabled tid ref found
    cases isLive.symm.trans live
    exact own
  · rintro rfl
    exact Option.some.inj ((sound.listed ref thread live).symm.trans found)

theorem own_of_absent (sound : Sound none machine) (absent : machine.table tid = none)
    (ref : Ref Thread) (thread : Thread) (live : machine.store.threads.get? ref = some thread) :
    ref = machine.store.threads.nextRef ↔ thread.tid = tid := by
  constructor
  · intro fresh
    exact absurd fresh (Heap.ne_nextRef live)
  · rintro rfl
    cases absent.symm.trans (sound.listed ref thread live)

/-- A thread that has to leave its maps does not have those of its leader. -/
theorem Leaves.balanced {old new : Ref Maps} {left : Maps}
    (leaves : Leaves machine tgid tid th leader object old new left) (sound : Sound none machine) :
    machine.store.Balanced tgid tid := by
  intro _ ref moving other lead live own _ leads leadOwn
  obtain ⟨thread, moves, has⟩ := leaves.moves
  obtain rfl := (own_of_found sound moves.found ref moving live).mpr own
  cases live.symm.trans moves.live
  have listed := sound.listed other lead leads
  rw [leadOwn] at listed
  obtain rfl := leader_eq listed leads moves.led moves.leads
  rw [has, leaves.shares]
  intro same
  exact leaves.differs (Option.some.inj same)

theorem Enters.balanced {new : Ref Maps} (enters : Enters machine tgid tid leader object new)
    (sound : Sound none machine) : machine.store.Balanced tgid tid := by
  intro _ ref moving _ _ live own
  have listed := sound.listed ref moving live
  rw [own, enters.absent] at listed
  cases listed

/-- The reference to the leader is kept where the maps are the same. -/
theorem not_retains_of_shares (moves : Moves machine tgid tid th thread leader object)
    (sound : Sound none machine) (shares : thread.maps = object.maps) :
    ¬ machine.store.Retains (((machine.ensure tgid).modifyThread th
      (retainedIn tgid)).modifyThread leader (retainedIn tgid)).store tgid th := by
  intro retains
  have different := moves.different sound.tabled
  obtain ⟨leads, -⟩ := moves.leader_of_shares sound shares
  obtain ⟨after, isAfter, same⟩ := retains.others leader object leads different
  have changed : (((machine.ensure tgid).modifyThread th (retainedIn tgid)).modifyThread leader
      (retainedIn tgid)).store.threads.get? leader = some (retainedIn tgid object) := by
    rw [State.modifyThread, Store.modifyThread_threads, Heap.get?_modify_self, State.modifyThread,
      Store.modifyThread_threads, Heap.get?_modify_of_ne _ different, moves.leads]
    rfl
  cases isAfter.symm.trans changed
  have more : object.refcnt + 1 = object.refcnt := same
  have bound := object.refcnt.isLt
  have counts := congrArg BitVec.toNat more
  rw [BitVec.toNat_add] at counts
  change (object.refcnt.toNat + 1) % 2 ^ 32 = _ at counts
  omega

/-- A lookup that returns takes one reference in all exactly if it is balanced and its
thread's counter has room. -/
theorem Outcome.retains_iff (outcome : Outcome machine tgid tid (.ok (some th, next)))
    (sound : Sound none machine) :
    machine.store.Retains next.store tgid th ↔
      machine.store.Balanced tgid tid ∧ machine.store.Roomy tid := by
  cases outcome with
  | leader self led =>
      subst self
      obtain ⟨object, present, -⟩ := (sound.ensure tid).tabled tid th led
      have balanced : machine.store.Balanced tid tid := fun other => absurd rfl other
      rw [(Grown.refl machine.store tid th).ensure.retains_iff present
        (tallies_modify fun _ => rfl), and_iff_right balanced]
      cases found : machine.table tid with
      | some ref =>
          rw [ensure_of_some found, found] at led
          cases led
          exact roomy_of_own (own_of_found sound found)
      | none =>
          obtain rfl : machine.store.threads.nextRef = th := by
            simpa [Plain.ensure, found] using led
          exact roomy_of_own (own_of_absent sound found)
  | stays member found live stays =>
      have balanced := balanced_of_home sound ⟨found, _, live, stays⟩
      rw [(Grown.refl machine.store tgid th).retains_iff live (tallies_modify fun _ => rfl),
        and_iff_right balanced]
      exact roomy_of_own (own_of_found sound found)
  | shares moves shares =>
      refine iff_of_false (not_retains_of_shares moves sound shares) ?_
      rintro ⟨balanced, -⟩
      exact moves.not_balanced sound shares balanced
  | @leaves _ leader _ old new left leaves empty counted =>
      obtain ⟨thread, moves, -⟩ := leaves.moves
      have tallies : Tallies (machine.ensure tgid).store.threads _ th := tallies_joined
        ⟨(machine.ensure tgid).store.dropMaps old left, (machine.ensure tgid).table⟩ tgid th leader
          new
      rw [(Grown.refl machine.store tgid th).ensure.retains_iff
        (get?_ensure moves.live tgid) tallies, and_iff_right (leaves.balanced sound)]
      exact roomy_of_own (own_of_found sound moves.found)
  | enters enters counted =>
      rw [(grown_enroll machine tgid tid).ensure.retains_iff
        (get?_ensure (Heap.get?_alloc_nextRef _ _) tgid) (tallies_joined _ tgid _ _ _),
        and_iff_right (enters.balanced sound)]
      exact roomy_of_own (own_of_absent sound enters.absent)

end Plain

/-- In every state that a run reaches, a lookup that fails no assertion returns, takes one
reference to the thread it returns and leaves all other counters alone, exactly when it
gives no leader back whose counter has wrapped around, is balanced and finds room for
the reference. -/
theorem lookup_retains_iff {calls : List Call} {replies : List Reply} {machine : Machine}
    (ran : runAll Machine.step calls Machine.new = .ok (replies, machine)) (tgid tid : Pid)
    (unfailed : ∀ failed, Machine.findnewThread machine tgid tid ≠ .error (.assertion failed)) :
    (∃ th next, Machine.findnewThread machine tgid tid = .ok (some th, next) ∧
      machine.store.Retains next.store tgid th) ↔
      ¬ machine.store.Wrapped tgid tid ∧ machine.store.Balanced tgid tid ∧
        machine.store.Roomy tid := by
  obtain ⟨plain, matched, -⟩ := Machine.accounted_of_run ran
  rw [matched.1.store]
  rcases Machine.findnewThread_of_matches matched tgid tid with
    ⟨failure, looked, -, outcome⟩ | ⟨th, next, after, looked, -, outcome, matchedNext⟩
  · have wraps := outcome.linkedPut_iff matched.2
    refine iff_of_false ?_ ?_
    · rintro ⟨th, next, returned, -⟩
      cases looked.symm.trans returned
    · rintro ⟨notWrapped, -⟩
      cases outcome with
      | broken leaves occupied => exact unfailed _ looked
      | leavesWrapped leaves empty wrapped => exact notWrapped (wraps.mp rfl)
      | entersWrapped enters wrapped => exact notWrapped (wraps.mp rfl)
  · have notWrapped : ¬ plain.store.Wrapped tgid tid := by
      intro wrapped
      cases (outcome.linkedPut_iff matched.2).mpr wrapped
    have retains := outcome.retains_iff matched.2
    rw [← matchedNext.1.store] at retains
    rw [and_iff_right notWrapped, ← retains]
    constructor
    · rintro ⟨th', next', returned, retained⟩
      cases looked.symm.trans returned
      exact retained
    · intro retained
      exact ⟨th, next, looked, retained⟩

theorem lookup_retains_iff_mapLs :
    ∃ replies machine, runAll Machine.step [.mapLs 1 1] Machine.new = .ok (replies, machine) ∧
      ((∃ th next, Machine.findnewThread machine 1 2 = .ok (some th, next) ∧
        machine.store.Retains next.store 1 th) ↔
        ¬ machine.store.Wrapped 1 2 ∧ machine.store.Balanced 1 2 ∧ machine.store.Roomy 2) := by
  have run : ∃ replies machine th next, runAll Machine.step [.mapLs 1 1] Machine.new =
      .ok (replies, machine) ∧ Machine.findnewThread machine 1 2 = .ok (some th, next) :=
    ⟨_, _, _, _, rfl, rfl⟩
  obtain ⟨replies, machine, th, next, ran, looked⟩ := run
  refine ⟨replies, machine, ran, lookup_retains_iff ran 1 2 ?_⟩
  intro failed other
  cases looked.symm.trans other

/-- Thread 1 has moved to process 2 and has its maps. When thread 2 moves to process 1,
whose leader is thread 1, a reference to that is kept. -/
theorem lookup_keeps_leader :
    ∃ replies machine next lead after,
      runAll Machine.step [.sample 1 1, .sample 2 1] Machine.new = .ok (replies, machine) ∧
      Machine.findnewThread machine 1 2 = .ok (some ⟨1⟩, next) ∧
      machine.store.threads.get? ⟨0⟩ = some lead ∧ next.store.threads.get? ⟨0⟩ = some after ∧
      ¬ machine.store.Retains next.store 1 ⟨1⟩ := by
  have run : ∃ replies machine next lead after,
      runAll Machine.step [.sample 1 1, .sample 2 1] Machine.new = .ok (replies, machine) ∧
      Machine.findnewThread machine 1 2 = .ok (some ⟨1⟩, next) ∧
      machine.store.threads.get? ⟨0⟩ = some lead ∧ next.store.threads.get? ⟨0⟩ = some after ∧
      after.refcnt ≠ lead.refcnt := by
    refine ⟨_, _, _, _, _, rfl, rfl, rfl, rfl, ?_⟩
    decide
  obtain ⟨replies, machine, next, lead, after, ran, looked, leads, isAfter, changed⟩ := run
  refine ⟨replies, machine, next, lead, after, ran, looked, leads, isAfter, ?_⟩
  intro retains
  obtain ⟨found, isFound, same⟩ := retains.others ⟨0⟩ lead leads (by decide)
  cases isAfter.symm.trans isFound
  exact changed same

end DwBpf
