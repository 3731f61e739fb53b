import DwBpf.Event.Visit
import DwBpf.Machine.Regrouping
import Mathlib.Data.Fintype.List

/-! # The lookup of a thread in a state of the library

In every state that calls of the library reach, the hashed table is a plain map
from tids to threads, and a lookup is a lookup in that map
(`DwBpf.Machine.answers_of_not_wrapped`). It goes wrong where the counter of the
leader it looks up on the way has wrapped around to zero, so that giving the
leader back destroys it (`DwBpf.Machine.not_answers_of_wrapped`).
-/

namespace DwBpf

namespace Machine

/-- The buckets hold the threads, in order and counted. -/
structure Ordered (machine : Machine) : Prop where
  sorted : ∀ index, (machine.table index).entries.toList.Pairwise fun first second =>
    ∃ thread thread', machine.store.threads.get? first = some thread ∧
      machine.store.threads.get? second = some thread' ∧ thread.tid.toInt < thread'.tid.toInt
  member : ∀ index th, th ∈ (machine.table index).entries.toList ↔
    ∃ thread, machine.store.threads.get? th = some thread ∧
      thread.tid.toNat % threadsTableSize = index
  counted : ∀ index, (machine.table index).nr.toNat =
    (machine.table index).entries.toList.length
  matched : ∀ index th, (machine.table index).lastMatch = some th →
    th ∈ (machine.table index).entries.toList

/-- The machine with the last matches of some buckets forgotten. -/
def forget (machine : Machine) (buckets : Fin threadsTableSize → Bool) : Machine where
  store := machine.store
  table := fun index =>
    if buckets index then { machine.table index with lastMatch := none } else machine.table index

/-- The same machine but for the last matches. -/
structure SameTable (machine machine' : Machine) : Prop where
  store : machine'.store = machine.store
  entries : ∀ index, (machine'.table index).entries.toList = (machine.table index).entries.toList
  nr : ∀ index, (machine'.table index).nr = (machine.table index).nr

/-- What the lookup of `(tgid, tid)` returns, and what it leaves of the machine. If
an `earlier` state had a thread with this tid, for which every lookup since then
was answered with it, then it is that object. -/
structure Found (earlier machine : Machine) (tgid tid : Pid) (th : Ref Thread) (next : Machine) :
    Prop where
  asked : ∃ thread, next.Holds th thread ∧ thread.tid = tid ∧ thread.tgid = tgid
  same : ∀ old thread, earlier.Holds old thread → thread.tid = tid → old = th
  kept : ∀ ref thread, machine.Holds ref thread → ∃ after, next.Holds ref after ∧
    after.tid = thread.tid ∧
    (thread.tid ≠ tid → thread.tid ≠ tgid → after.tgid = thread.tgid ∧ after.maps = thread.maps)
  added : ∀ ref thread, next.Holds ref thread →
    (∃ before, machine.Holds ref before) ∨ thread.tid = tid ∨ thread.tid = tgid
  ordered : next.Ordered
  forgets : ∀ buckets, ∃ next', findnewThread (machine.forget buckets) tgid tid =
    .ok (some th, next') ∧ next.SameTable next'

/-- The lookup of `(tgid, tid)` fails an assertion or returns the thread asked for. -/
def Answers (earlier machine : Machine) (tgid tid : Pid) : Prop :=
  (∃ failed, findnewThread machine tgid tid = .error (.assertion failed)) ∨
    ∃ th next, findnewThread machine tgid tid = .ok (some th, next) ∧
      Found earlier machine tgid tid th next

end Machine

/-- The lookup of `(tgid, tid)` will look up a leader whose counter has wrapped
around to zero, and give the leader back: the thread does not exist, or it is in
another group and leaves its maps, which hold no ranges, for the leader's. -/
def Store.Wrapped (store : Store) (tgid tid : Pid) : Prop :=
  tid ≠ tgid ∧ ∃ leader lead, store.threads.get? leader = some lead ∧ lead.tid = tgid ∧
    lead.refcnt = 0 ∧
    ((∀ th thread, store.threads.get? th = some thread → thread.tid ≠ tid) ∨
      ∃ th thread maps object, store.threads.get? th = some thread ∧ thread.tid = tid ∧
        thread.tgid ≠ tgid ∧ thread.maps = some maps ∧ lead.maps ≠ some maps ∧
        store.maps.get? maps = some object ∧ object.entries.toList = [])

namespace Plain

variable {machine next : Plain} {tgid tid : Pid} {th leader : Ref Thread} {thread object : Thread}

/-- A leader with a wrapped counter was there before the lookup. -/
theorem leader_of_wrapped (tabled : machine.Tabled)
    (led : (machine.ensure tgid).table tgid = some leader)
    (leads : (machine.ensure tgid).store.threads.get? leader = some object)
    (wrapped : object.refcnt = 0) :
    machine.store.threads.get? leader = some object ∧ object.tid = tgid := by
  cases found : machine.table tgid with
  | some th =>
      rw [ensure_of_some found] at led leads
      obtain ⟨stored, live, own⟩ := tabled tgid leader led
      cases live.symm.trans leads
      exact ⟨leads, own⟩
  | none =>
      obtain rfl : machine.store.threads.nextRef = leader := by
        simpa [ensure, found] using led
      obtain rfl : _ = object := by
        simpa [ensure, found] using leads
      cases wrapped

/-- A leader that exists is the one the lookup finds. -/
theorem leader_eq {lead : Thread} {ref : Ref Thread} (found : machine.table tgid = some ref)
    (live : machine.store.threads.get? ref = some lead)
    (led : (machine.ensure tgid).table tgid = some leader)
    (leads : (machine.ensure tgid).store.threads.get? leader = some object) :
    lead = object := by
  rw [ensure_of_some found] at led leads
  cases found.symm.trans led
  exact Option.some.inj (live.symm.trans leads)

theorem not_wrapped_of_home (sound : Sound none machine) (home : Home machine tgid tid th) :
    ¬ machine.store.Wrapped tgid tid := by
  rintro ⟨-, leader, lead, -, -, -, absent | ⟨ref, moving, -, -, live, own, moves, -⟩⟩
  · obtain ⟨thread, isLive, own⟩ := sound.tabled tid th home.1
    exact absent th thread isLive own
  · obtain ⟨found, thread, isLive, group⟩ := home
    have listed := sound.listed ref moving live
    rw [own, found] at listed
    cases listed
    cases isLive.symm.trans live
    exact moves group

/-- What a thread that moves would have to meet in a wrapped leader. -/
theorem Moves.of_wrapped (moves : Moves machine tgid tid th thread leader object)
    (sound : Sound none machine) (wrapped : machine.store.Wrapped tgid tid) :
    object.refcnt = 0 ∧ thread.maps ≠ object.maps ∧ ∃ maps left, thread.maps = some maps ∧
      machine.store.maps.get? maps = some left ∧ left.entries.toList = [] := by
  obtain ⟨stored, storedLive, own⟩ := sound.tabled tid th moves.found
  obtain ⟨-, ref, lead, live, leads, zero, absent |
    ⟨other, moving, maps, left, movingLive, movingOwn, -, has, differs, isLive, empty⟩⟩ := wrapped
  · exact absurd own (absent th stored storedLive)
  · have led := sound.listed ref lead live
    rw [leads] at led
    obtain rfl : lead = object := leader_eq led live moves.led moves.leads
    have listed := sound.listed other moving movingLive
    rw [movingOwn, moves.found] at listed
    cases listed
    cases movingLive.symm.trans moves.live
    refine ⟨zero, ?_, maps, left, has, isLive, empty⟩
    rw [has]
    exact differs.symm

/-- A lookup that gives back a leader with a wrapped counter is the only one that
neither returns nor fails an assertion. -/
theorem Outcome.linkedPut_iff {result : Except Fault (Option (Ref Thread) × Plain)}
    (outcome : Outcome machine tgid tid result) (sound : Sound none machine) :
    result = .error .linkedPut ↔ machine.store.Wrapped tgid tid := by
  cases outcome with
  | leader self led => exact iff_of_false nofun fun wrapped => wrapped.1 self
  | stays member found live stays =>
      exact iff_of_false nofun (not_wrapped_of_home sound ⟨found, _, live, stays⟩)
  | shares moves shares =>
      refine iff_of_false nofun fun wrapped => ?_
      exact (moves.of_wrapped sound wrapped).2.1 shares
  | leaves leaves empty counted =>
      obtain ⟨_, moves, -⟩ := leaves.moves
      exact iff_of_false nofun fun wrapped => counted (moves.of_wrapped sound wrapped).1
  | enters enters counted =>
      refine iff_of_false nofun ?_
      rintro ⟨-, ref, lead, live, leads, zero, -⟩
      have led := sound.listed ref lead live
      rw [leads] at led
      have enrolled : (machine.enroll tgid tid).store.threads.get? ref = some lead :=
        Heap.get?_alloc_of_some _ live
      obtain rfl := leader_eq (enroll_table_of_some enters.absent led tgid) enrolled enters.led
        enters.leads
      exact counted zero
  | broken leaves occupied =>
      obtain ⟨_, moves, has⟩ := leaves.moves
      refine iff_of_false nofun fun wrapped => ?_
      obtain ⟨-, -, maps, left, hasMaps, stored, empty⟩ := moves.of_wrapped sound wrapped
      cases has.symm.trans hasMaps
      cases leaves.stored.symm.trans stored
      exact occupied empty
  | @leavesWrapped th leader object old new left leaves empty wrapped =>
      obtain ⟨thread, moves, has⟩ := leaves.moves
      obtain ⟨stored, storedLive, own⟩ := sound.tabled tid th moves.found
      cases storedLive.symm.trans moves.live
      obtain ⟨live, leads⟩ := leader_of_wrapped sound.tabled moves.led moves.leads wrapped
      refine iff_of_true rfl ⟨moves.member, leader, object, live, leads, wrapped,
        .inr ⟨th, thread, old, left, storedLive, own, moves.moves, has, ?_, leaves.stored, empty⟩⟩
      rw [leaves.shares]
      exact fun same => leaves.differs (Option.some.inj same).symm
  | @entersWrapped leader object new enters wrapped =>
      obtain ⟨live, leads⟩ := leader_of_wrapped (tabled_enroll sound.tabled) enters.led enters.leads
        wrapped
      refine iff_of_true rfl ⟨enters.member, leader, object, ?_, leads, wrapped, .inl ?_⟩
      · rcases Heap.get?_alloc_eq_some.mp live with ⟨-, rfl⟩ | before
        · exact absurd leads enters.member
        · exact before
      · rintro th thread isLive rfl
        cases enters.absent.symm.trans (sound.listed th thread isLive)

end Plain

namespace Machine

variable {machine : Machine} {plain : Plain}

/-- Each bucket has at most `2 ^ 24` threads. -/
theorem Represents.length_lt {pending : Fin threadsTableSize → U32}
    (represents : Represents pending machine plain) (index : Fin threadsTableSize) :
    (machine.table index).entries.toList.length < 2 ^ 32 := by
  let quotient : Ref Thread → Fin (2 ^ 24) := fun ref =>
    ⟨((machine.store.threads.get? ref).elim 0 fun thread => thread.tid.toNat) / 256, by
      have bound : ((machine.store.threads.get? ref).elim 0 fun thread => thread.tid.toNat) <
          2 ^ 32 := by
        cases machine.store.threads.get? ref with
        | none => exact Nat.two_pow_pos 32
        | some thread => exact thread.tid.isLt
      omega⟩
  have nodup := represents.nodup index
  have injective : ∀ first ∈ (machine.table index).entries.toList,
      ∀ second ∈ (machine.table index).entries.toList,
      quotient first = quotient second → first = second := by
    intro first firstMem second secondMem same
    obtain ⟨thread, live, -, inBucket, found⟩ := represents.live_of_member firstMem
    obtain ⟨thread', live', -, inBucket', found'⟩ := represents.live_of_member secondMem
    have quotients : thread.tid.toNat / 256 = thread'.tid.toNat / 256 := by
      simpa [quotient, live, live'] using same
    have rests : thread.tid.toNat % 256 = thread'.tid.toNat % 256 :=
      congrArg Fin.val (inBucket.trans inBucket'.symm)
    have tids : thread.tid = thread'.tid := BitVec.eq_of_toNat_eq (by omega)
    rw [tids, found'] at found
    exact (Option.some.inj found).symm
  have bounded := (nodup.map_on injective).length_le_card
  rw [List.length_map, Fintype.card_fin] at bounded
  omega

/-- The trees of the buckets are in order, with every thread in the bucket of its tid. -/
theorem Matches.ordered (matched : Matches machine plain) : machine.Ordered where
  sorted := by
    intro index
    refine (matched.1.sorted index).imp_of_mem ?_
    intro first second firstMem secondMem below
    obtain ⟨thread, live, -⟩ := matched.1.live_of_member firstMem
    obtain ⟨thread', live', -⟩ := matched.1.live_of_member secondMem
    rw [key_of_live live, key_of_live live'] at below
    exact ⟨thread, thread', live, live', below⟩
  member := by
    intro index th
    constructor
    · intro inTree
      obtain ⟨thread, live, -, inBucket, -⟩ := matched.1.live_of_member inTree
      exact ⟨thread, live, congrArg Fin.val inBucket⟩
    · rintro ⟨thread, live, inBucket⟩
      rw [matched.1.store] at live
      exact (matched.1.member index th).mpr
        ⟨thread.tid, Fin.ext inBucket, matched.2.listed th thread live⟩
  counted := by
    intro index
    have counted : (machine.table index).nr = _ :=
      (BitVec.add_zero _).symm.trans (matched.1.counted index)
    rw [counted, BitVec.toNat_ofNat, Nat.mod_eq_of_lt (matched.1.length_lt index)]
  matched := matched.1.matched

/-- The cached last match decides nothing. -/
theorem Matches.forget (matched : Matches machine plain) (buckets : Fin threadsTableSize → Bool) :
    Matches (machine.forget buckets) plain := by
  have same : ∀ index, ((machine.forget buckets).table index).entries =
      (machine.table index).entries ∧ ((machine.forget buckets).table index).nr =
        (machine.table index).nr := by
    intro index
    simp only [Machine.forget]
    split
    · exact ⟨rfl, rfl⟩
    · exact ⟨rfl, rfl⟩
  refine ⟨⟨matched.1.store, matched.1.tabled, ?_, ?_, ?_, ?_⟩, matched.2⟩
  · intro index th
    rw [(same index).1]
    exact matched.1.member index th
  · intro index
    rw [(same index).1]
    exact matched.1.sorted index
  · intro index
    rw [(same index).1, (same index).2]
    exact matched.1.counted index
  · intro index th found
    rw [(same index).1]
    simp only [Machine.forget] at found
    split at found
    · cases found
    · exact matched.1.matched index th found

/-- Tables that represent the same plain table differ in their last matches only. -/
theorem SameTable.of_matches {machine' : Machine} (matched : Matches machine plain)
    (matched' : Matches machine' plain) : SameTable machine machine' := by
  have store : machine'.store = machine.store := matched'.1.store.trans matched.1.store.symm
  have entries : ∀ index, (machine'.table index).entries.toList =
      (machine.table index).entries.toList := by
    intro index
    have perm := (List.perm_ext_iff_of_nodup (matched'.1.nodup index)
      (matched.1.nodup index)).mpr fun th =>
      (matched'.1.member index th).trans (matched.1.member index th).symm
    have sorted := matched'.1.sorted index
    rw [store] at sorted
    exact perm.eq_of_pairwise (fun _ _ _ _ below above => absurd below (Int.lt_asymm above)) sorted
      (matched.1.sorted index)
  refine ⟨store, entries, fun index => ?_⟩
  have counted := matched'.1.counted index
  rw [entries, ← matched.1.counted index] at counted
  exact (BitVec.add_zero _).symm.trans (counted.trans (BitVec.add_zero _))

/-- The threads of the plain table stay in it. -/
def Extends (earlier plain : Plain) : Prop :=
  ∀ tid th, earlier.table tid = some th → plain.table tid = some th

theorem extends_of_run {start : Machine} {earlier : Plain} {calls : List Call}
    {replies : List Reply} (matched : Matches start earlier)
    (ran : runAll Machine.step calls start = .ok (replies, machine)) :
    ∃ plain, Matches machine plain ∧ Extends earlier plain := by
  refine runs_keep matched (fun _ _ found => found) ?_ ran
  intro call plain reply next sound before stepped
  refine Plain.step_keeps sound ?_ before stepped
  intro visit _ plain tgid tid th middle next before _ visited sought ref found
  rw [visited.table]
  exact visited.outcome.table_of_some (before sought ref found)

/-- From what a lookup does with the plain table to what the thread that it returns has to
satisfy. -/
theorem found_of_outcome {earlier next : Machine} {earlierPlain plain' : Plain} {tgid tid : Pid}
    {th : Ref Thread} (matchedEarlier : Matches earlier earlierPlain)
    (matched : Matches machine plain) (grown : Extends earlierPlain plain)
    (outcome : Plain.Outcome plain tgid tid (.ok (some th, plain')))
    (matchedNext : Matches next plain')
    (forgets : ∀ buckets, ∃ next', findnewThread (machine.forget buckets) tgid tid =
      .ok (some th, next') ∧ Matches next' plain') :
    Found earlier machine tgid tid th next := by
  obtain ⟨found, same, home⟩ := outcome.home matched.2
  cases same
  obtain ⟨inTable, thread, live, group⟩ := home
  obtain ⟨stored, storedLive, own⟩ := matchedNext.2.tabled tid th inTable
  cases live.symm.trans storedLive
  refine ⟨?_, ?_, ?_, ?_, matchedNext.ordered, ?_⟩
  · exact ⟨thread, (holds_iff matchedNext).mpr live, own, group⟩
  · intro old was held sameTid
    have listed := matchedEarlier.2.listed old was ((holds_iff matchedEarlier).mp held)
    rw [sameTid] at listed
    have kept := outcome.table_of_some (grown tid old listed)
    exact Option.some.inj (kept.symm.trans inTable)
  · intro ref before held
    rw [holds_iff matched] at held
    have listed := outcome.table_of_some (matched.2.listed ref before held)
    obtain ⟨after, afterLive, afterOwn⟩ := matchedNext.2.tabled _ ref listed
    refine ⟨after, (holds_iff matchedNext).mpr afterLive, afterOwn, ?_⟩
    intro notTid notTgid
    have untouched := outcome.untouched matched.2 held notTid notTgid
    cases untouched.symm.trans afterLive
    exact ⟨rfl, rfl⟩
  · intro ref after held
    rw [holds_iff matchedNext] at held
    by_cases notTid : after.tid = tid
    · exact .inr (.inl notTid)
    · by_cases notTgid : after.tid = tgid
      · exact .inr (.inr notTgid)
      · have listed := matchedNext.2.listed ref after held
        rw [outcome.table_of_ne notTid notTgid] at listed
        obtain ⟨before, beforeLive, -⟩ := matched.2.tabled _ ref listed
        exact .inl ⟨before, (holds_iff matched).mpr beforeLive⟩
  · intro buckets
    obtain ⟨next', looked, matched'⟩ := forgets buckets
    exact ⟨next', looked, .of_matches matchedNext matched'⟩

/-- A lookup of the source's machine has the outcome of a lookup in the plain
table. -/
theorem findnewThread_of_matches (matched : Matches machine plain) (tgid tid : Pid) :
    (∃ failure, findnewThread machine tgid tid = .error failure ∧
      Plain.findnewThread plain tgid tid = .error failure ∧
      Plain.Outcome plain tgid tid (.error failure)) ∨
    ∃ th next plain', findnewThread machine tgid tid = .ok (some th, next) ∧
      Plain.findnewThread plain tgid tid = .ok (some th, plain') ∧
      Plain.Outcome plain tgid tid (.ok (some th, plain')) ∧ Matches next plain' := by
  have outcome := Plain.findnewThread_outcome matched.2.valid tgid tid
  have agree := agree_findnewThread matched.1 matched.2.valid tgid tid
  cases looked : findnewThread machine tgid tid with
  | error failure =>
      rw [looked] at agree
      rw [agree.error_left] at outcome
      exact .inl ⟨failure, rfl, agree.error_left, outcome⟩
  | ok result =>
      obtain ⟨found, next⟩ := result
      rw [looked] at agree
      obtain ⟨⟨found', plain'⟩, plainLooked, same, represents⟩ := agree.ok_left
      obtain rfl : found = found' := same
      rw [plainLooked] at outcome
      obtain ⟨th, rfl, -⟩ := outcome.home matched.2
      exact .inr ⟨th, next, plain', rfl, plainLooked, outcome, represents, outcome.sound matched.2⟩

/-- A lookup answers as it should unless the counter of the leader has wrapped. -/
theorem answers_iff {earlier : Machine} {earlierPlain : Plain}
    (matchedEarlier : Matches earlier earlierPlain) (matched : Matches machine plain)
    (grown : Extends earlierPlain plain) (tgid tid : Pid) :
    Answers earlier machine tgid tid ↔ ¬ machine.store.Wrapped tgid tid := by
  rw [matched.1.store]
  rcases findnewThread_of_matches matched tgid tid with
    ⟨failure, looked, -, outcome⟩ | ⟨th, next, plain', looked, plainLooked, outcome, matchedNext⟩
  · have wraps := outcome.linkedPut_iff matched.2
    rw [← wraps]
    cases outcome with
    | broken leaves occupied => exact iff_of_true (.inl ⟨_, looked⟩) nofun
    | leavesWrapped leaves empty wrapped =>
        refine iff_of_false ?_ (not_not_intro rfl)
        rintro (⟨failed, other⟩ | ⟨th, next, other, -⟩)
        · cases looked.symm.trans other
        · cases looked.symm.trans other
    | entersWrapped enters wrapped =>
        refine iff_of_false ?_ (not_not_intro rfl)
        rintro (⟨failed, other⟩ | ⟨th, next, other, -⟩)
        · cases looked.symm.trans other
        · cases looked.symm.trans other
  · have wraps := outcome.linkedPut_iff matched.2
    rw [← wraps]
    refine iff_of_true (.inr ⟨th, next, looked, ?_⟩) nofun
    refine found_of_outcome matchedEarlier matched grown outcome matchedNext ?_
    intro buckets
    rcases findnewThread_of_matches (matched.forget buckets) tgid tid with
      ⟨failure, -, failed, -⟩ | ⟨th', next', plain'', looked', plainLooked', -, matched'⟩
    · cases plainLooked.symm.trans failed
    · cases plainLooked.symm.trans plainLooked'
      exact ⟨next', looked', matched'⟩

end Machine

/-- In every state reached by calls of the library, and for every earlier state of
the run, the lookup of `(tgid, tid)` answers as a plain map from tids to threads
would, whatever the last matches are, exactly when it does not give back a leader
whose counter has wrapped around to zero. -/
theorem findnewThread_refines {before after : List Call} {replies replies' : List Reply}
    {earlier machine : Machine}
    (ranBefore : runAll Machine.step before Machine.new = .ok (replies, earlier))
    (ranAfter : runAll Machine.step after earlier = .ok (replies', machine)) (tgid tid : Pid) :
    Machine.Answers earlier machine tgid tid ↔ ¬ machine.store.Wrapped tgid tid := by
  obtain ⟨earlierPlain, matchedEarlier, -⟩ := Machine.extends_of_run Machine.matches_new ranBefore
  obtain ⟨plain, matched, grown⟩ := Machine.extends_of_run matchedEarlier ranAfter
  exact Machine.answers_iff matchedEarlier matched grown tgid tid

theorem findnewThread_refines_sample :
    ∃ replies earlier replies' machine,
      runAll Machine.step [.sample 1 2] Machine.new = .ok (replies, earlier) ∧
      runAll Machine.step [.mapLs 1 1] earlier = .ok (replies', machine) ∧
      (Machine.Answers earlier machine 1 3 ↔ ¬ machine.store.Wrapped 1 3) := by
  have run : ∃ replies earlier replies' machine,
      runAll Machine.step [.sample 1 2] Machine.new = .ok (replies, earlier) ∧
      runAll Machine.step [.mapLs 1 1] earlier = .ok (replies', machine) := ⟨_, _, _, _, rfl, rfl⟩
  obtain ⟨replies, earlier, replies', machine, ranBefore, ranAfter⟩ := run
  exact ⟨replies, earlier, replies', machine, ranBefore, ranAfter,
    findnewThread_refines ranBefore ranAfter 1 3⟩

section Resolve

variable {store : Store} {th : Ref Thread} {thread : Thread} {maps : Ref Maps} {object : Maps}

/-- What a thread is like once libunwind was to be given access to it. -/
theorem Thread.prepareAccess_ok (live : store.threads.get? th = some thread) (created : Bool) :
    ∃ prepared next after, Thread.prepareAccess store th created = .ok (prepared, next) ∧
      next.maps = store.maps ∧ next.threads.get? th = some after ∧
      after.addrSpace = (thread.addrSpace || created) ∧
      ((thread.addrSpace = true → thread.ulops = true) → after.ulops = true) ∧
      after.maps = thread.maps := by
  rw [Thread.prepareAccess, deref_of_get? live, ok_bind]
  by_cases given : thread.addrSpace = true
  · rw [if_pos given]
    refine ⟨_, _, thread, rfl, rfl, live, ?_, fun operated => operated given, rfl⟩
    rw [given, Bool.true_or]
  · rw [if_neg given]
    refine ⟨_, _, _, rfl, rfl, Heap.get?_modify_eq_some.mpr ⟨thread, live, rfl⟩, ?_⟩
    rw [if_pos rfl, Bool.eq_false_iff.mpr given, Bool.false_or]
    exact ⟨rfl, fun _ => rfl, rfl⟩

theorem Thread.setComm_ok (live : store.threads.get? th = some thread) (str : Comm) :
    ∃ flushed next after, Thread.setComm store th str = .ok (flushed, next) ∧
      next.maps = store.maps ∧ next.threads.get? th = some after ∧
      after.addrSpace = thread.addrSpace ∧ after.ulops = thread.ulops ∧
      after.maps = thread.maps := by
  rw [Thread.setComm, deref_of_get? live, ok_bind]
  split
  · refine ⟨_, _, _, rfl, rfl, Heap.get?_modify_eq_some.mpr ⟨thread, live, rfl⟩, ?_⟩
    rw [if_pos rfl]
    exact ⟨rfl, rfl, rfl⟩
  · exact ⟨_, _, thread, rfl, rfl, live, rfl, rfl, rfl⟩

/-- Without a stacktrace to fill in, a sample is resolved whatever it holds. -/
theorem resolveThread_ok (live : store.threads.get? th = some thread)
    (has : thread.maps = some maps) (stored : store.maps.get? maps = some object) (uc : UnwindCtx)
    (created : Bool) (unwinder : Unwinder) :
    ∃ result next, resolveThread none uc created unwinder store th = .ok (result, next) := by
  obtain ⟨prepared, ready, before, prepare, readyMaps, beforeLive, -, -, beforeHas⟩ :=
    Thread.prepareAccess_ok live created
  obtain ⟨flushed, named, after, comm, namedMaps, afterLive, -, -, afterHas⟩ :=
    Thread.setComm_ok beforeLive uc.name
  have hasMaps : after.maps = some maps := afterHas.trans (beforeHas.trans has)
  have isStored : named.maps.get? maps = some object := by
    rw [namedMaps, readyMaps, stored]
  simp only [resolveThread, prepare, ok_bind, comm, Unwind.getEntries, deref_of_get? afterLive,
    hasMaps, deref_of_get? isStored, DwBpf.getEntries]
  split
  · exact ⟨_, _, rfl⟩
  · exact ⟨_, _, rfl⟩

end Resolve

namespace Plain

/-- Process 1 has its leader only, which has been referred to `references` times. -/
def Referred (references : Nat) (machine : Plain) : Prop :=
  Sound none machine ∧ machine.table 2 = none ∧ ∃ th thread, machine.table 1 = some th ∧
    machine.store.threads.get? th = some thread ∧ thread.tgid = 1 ∧
    thread.refcnt = BitVec.ofNat 32 references

/-- Each sample of the leader takes one reference and does not give it back. -/
theorem step_sample {references : Nat} {machine : Plain} (referred : Referred references machine) :
    ∃ reply next, Plain.step (.sample 1 1) machine = .ok (reply, next) ∧
      Referred (references + 1) next := by
  obtain ⟨sound, alone, th, thread, found, live, group, counted⟩ := referred
  have looked := findnewThread_of_home sound ⟨found, thread, live, group⟩
  have outcome := findnewThread_outcome sound.valid 1 1
  rw [looked] at outcome
  have soundMiddle := outcome.sound sound
  have retained : (machine.modifyThread th (retainedIn 1)).store.threads.get? th =
      some (retainedIn 1 thread) := by
    simp [live]
  obtain ⟨maps, object, has, stored⟩ := soundMiddle.valid.mapped th _ retained
  obtain ⟨result, store, resolved⟩ := resolveThread_ok retained has stored
    ⟨0, 1, 1, fun _ => 0, fun _ => 0, 0, fun _ => 0⟩ true ⟨[], 0, []⟩
  have quiet := quiet_resolveThread resolved
  obtain ⟨after, afterLive, core, refcnt⟩ := quiet.live retained
  refine ⟨.resolved result, ⟨store, machine.table⟩, ?_, ?_, alone, th, after, found, afterLive, ?_,
    ?_⟩
  · simp only [Plain.step, Call.step, Call.sample, resolveCallchain, withThread, looked, ok_bind,
      resolved]
    rfl
  · exact Sound.steady soundMiddle quiet.steady
  · exact congrArg Prod.fst core
  · rw [refcnt, BitVec.ofNat_add, ← counted]
    rfl

theorem run_samples (count : Nat) {references : Nat} {machine : Plain}
    (referred : Referred references machine) :
    ∃ replies next, runAll Plain.step (List.replicate count (.sample 1 1)) machine =
      .ok (replies, next) ∧ Referred (references + count) next := by
  induction count generalizing references machine with
  | zero => exact ⟨[], machine, rfl, referred⟩
  | succ count ih =>
      obtain ⟨reply, middle, stepped, referredMiddle⟩ := step_sample referred
      obtain ⟨replies, next, ran, referredNext⟩ := ih referredMiddle
      refine ⟨reply :: replies, next, ?_, ?_⟩
      · rw [List.replicate_succ, runAll_cons_eq_ok]
        exact ⟨reply, middle, replies, stepped, ran, rfl⟩
      · rw [Nat.add_assoc, Nat.add_comm 1] at referredNext
        exact referredNext

theorem referred_ensure : Referred 1 (Plain.new.ensure 1) := by
  refine ⟨sound_new.ensure 1, rfl, ⟨0⟩, _, rfl, rfl, rfl, rfl⟩

/-- The first sample of process 1 creates its leader. -/
theorem step_sample_new : Plain.step (.sample 1 1) Plain.new =
    Plain.step (.sample 1 1) (Plain.new.ensure 1) := by
  have led : (Plain.new.ensure 1).table 1 = some ⟨0⟩ := rfl
  have first : findnewThread Plain.new 1 1 = _ :=
    findnewThreadIn_leader _ sound_new.tabled led
  have ledAgain : ((Plain.new.ensure 1).ensure 1).table 1 = some ⟨0⟩ := by
    rw [ensure_of_some led, led]
  have again : findnewThread (Plain.new.ensure 1) 1 1 = _ :=
    findnewThreadIn_leader _ (sound_new.ensure 1).tabled ledAgain
  rw [ensure_of_some led] at again
  simp only [Plain.step, Call.step, Call.sample, resolveCallchain, withThread, first, again]

end Plain

/-- Every sample of process 1 leaves one more reference to its leader. -/
theorem runs_of_samples (count : Nat) :
    ∃ replies machine plain,
      runAll Machine.step (List.replicate (count + 1) (.sample 1 1)) Machine.new =
        .ok (replies, machine) ∧
      Machine.Matches machine plain ∧ Plain.Referred (2 + count) plain := by
  obtain ⟨reply, middle, stepped, referredMiddle⟩ := Plain.step_sample Plain.referred_ensure
  obtain ⟨replies, plain, ran, referred⟩ := Plain.run_samples count referredMiddle
  have whole : runAll Plain.step (List.replicate (count + 1) (.sample 1 1)) Plain.new =
      .ok (reply :: replies, plain) := by
    rw [List.replicate_succ, runAll_cons_eq_ok]
    exact ⟨reply, middle, replies, Plain.step_sample_new.trans stepped, ran, rfl⟩
  have agree := runAll_agree Machine.agree_step (List.replicate (count + 1) (.sample 1 1))
    Machine.matches_new
  rw [whole] at agree
  obtain ⟨⟨replies', machine⟩, machineRan, -, matched⟩ := agree.ok_right
  exact ⟨replies', machine, plain, machineRan, matched, referred⟩

/-- A leader without company that has been referred to `2 ^ 32` times is not found
from a thread of its process. -/
theorem not_answers_of_referred {machine : Machine} {plain : Plain} {references : Nat}
    (matched : Machine.Matches machine plain) (referred : Plain.Referred references plain)
    (wraps : BitVec.ofNat 32 references = 0) : ¬ Machine.Answers machine machine 1 2 := by
  rw [Machine.answers_iff matched matched (fun _ _ found => found), not_not, matched.1.store]
  obtain ⟨sound, alone, th, thread, found, live, -, counted⟩ := referred
  obtain ⟨stored, storedLive, own⟩ := sound.tabled 1 th found
  cases live.symm.trans storedLive
  refine ⟨by decide, th, thread, live, own, counted.trans wraps, .inl ?_⟩
  intro other moving movingLive sameTid
  have listed := sound.listed other moving movingLive
  rw [sameTid, alone] at listed
  cases listed

/-- After `2 ^ 32 - 1` samples of process 1 the counter of its leader is zero, and
the lookup of another thread of the process destroys the leader. -/
theorem wrapped_leader_not_answered :
    ∃ replies machine, runAll Machine.step (List.replicate (2 ^ 32 - 1) (.sample 1 1))
        Machine.new = .ok (replies, machine) ∧
      ¬ Machine.Answers machine machine 1 2 := by
  obtain ⟨replies, machine, plain, ran, matched, referred⟩ := runs_of_samples 4294967294
  exact ⟨replies, machine, ran, not_answers_of_referred matched referred rfl⟩

end DwBpf
