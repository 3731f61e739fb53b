import DwBpf.Foundation.Groups
import DwBpf.Machine.Sharing

/-! # What a lookup does to the groups

The threads of a machine as members of groups, whose spaces are their maps. A
lookup of `(tgid, tid)` leaves the groups alone if the thread is in its group
already, and otherwise makes it join the group on the terms of the leader
(`DwBpf.Plain.Outcome.groups_eq`).
-/

namespace DwBpf

namespace Plain

/-- The group and the maps of each thread of the table. -/
def groups (machine : Plain) : Groups Pid (Ref Maps) := fun tid => do
  let th ← machine.table tid
  let thread ← machine.store.threads.get? th
  let maps ← thread.maps
  return (thread.tgid, maps)

variable {machine next : Plain} {tgid tid : Pid} {th leader : Ref Thread} {thread object : Thread}
  {maps new : Ref Maps} {change change' : Thread → Thread}

theorem groups_of_live (found : machine.table tid = some th)
    (live : machine.store.threads.get? th = some thread) :
    machine.groups tid = thread.maps.map fun maps => (thread.tgid, maps) := by
  simp only [groups, found, live, Option.bind_eq_bind, Option.bind_some]
  cases thread.maps <;> rfl

theorem groups_of_has (found : machine.table tid = some th)
    (live : machine.store.threads.get? th = some thread) (has : thread.maps = some maps) :
    machine.groups tid = some (thread.tgid, maps) := by
  rw [groups_of_live found live, has]
  rfl

/-- A tid is in a group with the maps of its thread. -/
theorem groups_eq_some (tabled : machine.Tabled) :
    machine.groups tid = some (tgid, maps) ↔ ∃ th thread, machine.table tid = some th ∧
      machine.store.threads.get? th = some thread ∧ thread.tid = tid ∧ thread.tgid = tgid ∧
      thread.maps = some maps := by
  constructor
  · intro member
    cases found : machine.table tid with
    | none => simp [groups, found] at member
    | some th =>
        obtain ⟨thread, live, own⟩ := tabled tid th found
        rw [groups_of_live found live, Option.map_eq_some_iff] at member
        obtain ⟨maps', has, same⟩ := member
        cases same
        exact ⟨th, thread, rfl, live, own, rfl, has⟩
  · rintro ⟨th, thread, found, live, -, rfl, has⟩
    exact groups_of_has found live has

theorem groups_of_absent (absent : machine.table tid = none) : machine.groups tid = none := by
  simp [groups, absent]

/-- Threads that are neither touched nor moved in the table stay in their groups. -/
theorem groups_congr (table : next.table tid = machine.table tid)
    (same : ∀ th, machine.table tid = some th →
      next.store.threads.get? th = machine.store.threads.get? th) :
    next.groups tid = machine.groups tid := by
  unfold groups
  rw [table]
  cases found : machine.table tid with
  | none => rfl
  | some th =>
      simp only [Option.bind_eq_bind, Option.bind_some]
      rw [same th found]

theorem ne_of_tid_ne {other : Pid} {ref : Ref Thread} (tabled : machine.Tabled)
    (found : machine.table tid = some th) (foundRef : machine.table other = some ref)
    (different : other ≠ tid) : ref ≠ th := by
  rintro rfl
  obtain ⟨thread, live, own⟩ := tabled tid ref found
  obtain ⟨_, liveAgain, ownOther⟩ := tabled other ref foundRef
  cases live.symm.trans liveAgain
  exact different (ownOther.symm.trans own)

/-- A change to one thread changes its own group only. -/
theorem groups_modifyThread (tabled : machine.Tabled) (found : machine.table tid = some th)
    (live : machine.store.threads.get? th = some thread) (joins : (change thread).tgid = tgid)
    (has : (change thread).maps = some new) :
    groups (machine.modifyThread th change) = fun member =>
      if member = tid then some (tgid, new) else machine.groups member := by
  funext member
  have table : (machine.modifyThread th change).table = machine.table := rfl
  by_cases same : member = tid
  · have nextLive : (machine.modifyThread th change).store.threads.get? th =
        some (change thread) := by
      simp [live]
    rw [if_pos same, same, groups_of_live (by rw [table, found]) nextLive, joins, has]
    rfl
  · rw [if_neg same]
    apply groups_congr
    · rw [table]
    · intro ref foundRef
      exact Heap.get?_modify_of_ne _ (ne_of_tid_ne tabled found foundRef same)

/-- A thread and its leader are put into one group with one maps object. -/
theorem groups_regroup (tabled : machine.Tabled) (found : machine.table tid = some th)
    (live : machine.store.threads.get? th = some thread)
    (led : machine.table tgid = some leader)
    (leads : machine.store.threads.get? leader = some object) (different : leader ≠ th)
    (threads : next.store.threads = (machine.store.threads.modify th change).modify leader change')
    (table : next.table = machine.table)
    (joins : (change thread).tgid = tgid ∧ (change thread).maps = some new)
    (stays : (change' object).tgid = tgid ∧ (change' object).maps = some new) :
    next.groups = fun member =>
      if member = tid ∨ member = tgid then some (tgid, new) else machine.groups member := by
  funext member
  by_cases isTid : member = tid
  · have nextLive : next.store.threads.get? th = some (change thread) := by
      rw [threads, Heap.get?_modify_of_ne _ different.symm, Heap.get?_modify_self, live,
        Option.map_some]
    rw [if_pos (.inl isTid), isTid, groups_of_live (by rw [table, found]) nextLive, joins.1,
      joins.2]
    rfl
  · by_cases isTgid : member = tgid
    · have nextLive : next.store.threads.get? leader = some (change' object) := by
        rw [threads, Heap.get?_modify_self, Heap.get?_modify_of_ne _ different, leads,
          Option.map_some]
      rw [if_pos (.inr isTgid), isTgid, groups_of_live (by rw [table, led]) nextLive, stays.1,
        stays.2]
      rfl
    · rw [if_neg (not_or.mpr ⟨isTid, isTgid⟩)]
      apply groups_congr
      · rw [table]
      · intro ref foundRef
        rw [threads, Heap.get?_modify_of_ne _ (ne_of_tid_ne tabled led foundRef isTgid),
          Heap.get?_modify_of_ne _ (ne_of_tid_ne tabled found foundRef isTid)]

/-- Making sure of a leader leaves the other groups alone. -/
theorem groups_ensure_of_ne (tabled : machine.Tabled) (different : tid ≠ tgid) :
    (machine.ensure tgid).groups tid = machine.groups tid := by
  apply groups_congr (ensure_table_of_ne different)
  intro th found
  obtain ⟨thread, live, -⟩ := tabled tid th found
  rw [live, get?_ensure live]

/-- The space of a leader is the maps object it has once it is there. -/
theorem space_of_leads (led : (machine.ensure tgid).table tgid = some leader)
    (leads : (machine.ensure tgid).store.threads.get? leader = some object)
    (has : object.maps = some new) :
    machine.groups.space tgid machine.store.maps.nextRef = new := by
  cases found : machine.table tgid with
  | some th =>
      rw [ensure_of_some found] at led leads
      simp [Groups.space, groups_of_live led leads, has]
  | none =>
      obtain rfl : machine.store.threads.nextRef = leader := by
        simpa [ensure, found] using led
      obtain rfl : _ = object := by
        simpa [ensure, found] using leads
      simp only [Groups.space, groups_of_absent found, Option.map_none, Option.getD_none]
      exact Option.some.inj has

/-- A thread without maps is in no group yet. -/
theorem groups_enroll (absent : machine.table tid = none) (tabled : machine.Tabled) :
    (machine.enroll tgid tid).groups = machine.groups := by
  funext member
  by_cases same : member = tid
  · subst same
    have enrolled : (machine.enroll tgid member).store.threads.get? machine.store.threads.nextRef =
        some { Thread.new tgid member with node := .tree } := Heap.get?_alloc_nextRef _ _
    rw [groups_of_absent absent, groups_of_live (Function.update_self ..) enrolled]
    rfl
  · apply groups_congr
    · exact Function.update_of_ne same ..
    · intro th found
      obtain ⟨thread, live, -⟩ := tabled member th found
      rw [live]
      exact Heap.get?_alloc_of_some _ live

/-- A thread that moves is not in the group yet. -/
theorem Moves.groups_ne (moves : Moves machine tgid tid th thread leader object) (maps : Ref Maps) :
    machine.groups tid ≠ some (tgid, maps) := by
  intro member
  rw [groups_of_live moves.found moves.live, Option.map_eq_some_iff] at member
  obtain ⟨_, _, same⟩ := member
  exact moves.moves (congrArg Prod.fst same)

/-- Putting a thread and its leader into one group is joining the group. -/
theorem groups_join (tabled : machine.Tabled)
    (led : (machine.ensure tgid).table tgid = some leader)
    (leads : (machine.ensure tgid).store.threads.get? leader = some object)
    (has : object.maps = some new)
    (regrouped : next.groups = fun member =>
      if member = tid ∨ member = tgid then some (tgid, new)
      else (machine.ensure tgid).groups member) :
    next.groups = machine.groups.join tgid tid machine.store.maps.nextRef := by
  rw [regrouped]
  funext member
  rw [Groups.join, space_of_leads led leads has]
  split
  · rfl
  · rename_i other
    exact groups_ensure_of_ne tabled (not_or.mp other).2

/-- A thread that moves joins the group with the maps of the leader. -/
theorem Moves.groups_eq (moves : Moves machine tgid tid th thread leader object)
    (sound : Sound none machine) (has : object.maps = some new)
    (threads : next.store.threads =
      ((machine.ensure tgid).store.threads.modify th change).modify leader change')
    (table : next.table = (machine.ensure tgid).table)
    (joins : (change thread).tgid = tgid ∧ (change thread).maps = some new)
    (stays : (change' object).tgid = tgid ∧ (change' object).maps = some new) :
    next.groups = machine.groups.join tgid tid machine.store.maps.nextRef := by
  have inTable : (machine.ensure tgid).table tid = some th :=
    (ensure_table_of_ne moves.member).trans moves.found
  exact groups_join sound.tabled moves.led moves.leads has
    (groups_regroup (sound.ensure tgid).tabled inTable (get?_ensure moves.live tgid) moves.led
      moves.leads (moves.different sound.tabled) threads table joins stays)

/-- A lookup makes the thread join the group, unless it is there already. -/
theorem Outcome.groups_eq {found : Option (Ref Thread)}
    (outcome : Outcome machine tgid tid (.ok (found, next))) (sound : Sound none machine) :
    next.groups = machine.groups ∨
      next.groups = machine.groups.join tgid tid machine.store.maps.nextRef ∧
        (tid ≠ tgid → ∀ maps, machine.groups tid ≠ some (tgid, maps)) := by
  cases outcome with
  | @leader th self led =>
      subst self
      obtain ⟨object, leads, own⟩ := (sound.ensure tid).tabled tid th led
      obtain ⟨new, -, has, -⟩ := (sound.ensure tid).valid.mapped th object leads
      refine .inr ⟨?_, fun other => absurd rfl other⟩
      rw [groups_modifyThread (sound.ensure tid).tabled led leads rfl has]
      funext member
      simp only [Groups.join, or_self, space_of_leads led leads has]
      split
      · rfl
      · rename_i other
        exact groups_ensure_of_ne sound.tabled other
  | @stays th thread member inTable live stays =>
      obtain ⟨maps, -, has, -⟩ := sound.valid.mapped th thread live
      have inGroup : machine.groups tid = some (tgid, maps) := by
        rw [groups_of_has inTable live has, stays]
      left
      rw [groups_modifyThread sound.tabled inTable live rfl has]
      funext other
      split
      · rename_i same
        rw [same, inGroup]
        rfl
      · rfl
  | @shares th leader thread object moves shares =>
      obtain ⟨new, -, has, -⟩ := (sound.ensure tgid).valid.mapped leader object moves.leads
      refine .inr ⟨?_, fun _ maps => moves.groups_ne maps⟩
      have joined : groups (((machine.ensure tgid).modifyThread th
          (retainedIn tgid)).modifyThread leader (retainedIn tgid)) = _ :=
        moves.groups_eq sound has rfl rfl ⟨rfl, shares.trans has⟩ ⟨rfl, has⟩
      exact joined
  | @leaves th leader object old new left leaves empty counted =>
      obtain ⟨thread, moves, -⟩ := leaves.moves
      refine .inr ⟨?_, fun _ maps => moves.groups_ne maps⟩
      exact moves.groups_eq sound leaves.shares rfl rfl ⟨rfl, rfl⟩ ⟨rfl, leaves.shares⟩
  | @enters leader object new enters counted =>
      have outside : ∀ maps, machine.groups tid ≠ some (tgid, maps) := by
        intro maps
        rw [groups_of_absent enters.absent]
        exact (Option.some_ne_none _).symm
      refine .inr ⟨?_, fun _ => outside⟩
      have tabled : Tabled (machine.enroll tgid tid) := tabled_enroll sound.tabled
      have inTable : ((machine.enroll tgid tid).ensure tgid).table tid =
          some machine.store.threads.nextRef :=
        (ensure_table_of_ne enters.member).trans (Function.update_self ..)
      have enrolled : ((machine.enroll tgid tid).ensure tgid).store.threads.get?
          machine.store.threads.nextRef = some { Thread.new tgid tid with node := .tree } :=
        get?_ensure (Heap.get?_alloc_nextRef _ _) tgid
      have entered := (sound.enroll enters.absent tgid).ensure tgid
      have different : leader ≠ machine.store.threads.nextRef := by
        rintro rfl
        cases enters.leads.symm.trans enrolled
        cases enters.shares
      have regrouped : groups (((machine.enroll tgid tid).ensure tgid).joined tgid
          machine.store.threads.nextRef leader new) = _ :=
        groups_regroup entered.tabled inTable enrolled enters.led enters.leads different rfl rfl
          ⟨rfl, rfl⟩ ⟨rfl, enters.shares⟩
      have joined := groups_join tabled enters.led enters.leads enters.shares regrouped
      rw [groups_enroll enters.absent sound.tabled] at joined
      exact joined

theorem ensure_table_of_some {ref : Ref Thread} (found : machine.table tid = some ref)
    (tgid : Pid) : (machine.ensure tgid).table tid = some ref := by
  by_cases same : tid = tgid
  · subst same
    rw [ensure_of_some found, found]
  · rw [ensure_table_of_ne same, found]

theorem enroll_table_of_some {ref : Ref Thread} {member : Pid} (absent : machine.table tid = none)
    (found : machine.table member = some ref) (tgid : Pid) :
      (machine.enroll tgid tid).table member = some ref := by
  have different : member ≠ tid := by
    rintro rfl
    cases absent.symm.trans found
  exact (Function.update_of_ne different ..).trans found

/-- No thread leaves the table. -/
theorem Outcome.table_of_some {found : Option (Ref Thread)} {member : Pid} {ref : Ref Thread}
    (outcome : Outcome machine tgid tid (.ok (found, next)))
    (inTable : machine.table member = some ref) : next.table member = some ref := by
  cases outcome with
  | leader self led => exact ensure_table_of_some inTable tgid
  | stays => exact inTable
  | shares moves shares => exact ensure_table_of_some inTable tgid
  | leaves leaves empty counted => exact ensure_table_of_some inTable tgid
  | enters enters counted =>
      exact ensure_table_of_some (enroll_table_of_some enters.absent inTable tgid) tgid

/-- Only the thread asked for and its leader are added. -/
theorem Outcome.table_of_ne {found : Option (Ref Thread)} {member : Pid}
    (outcome : Outcome machine tgid tid (.ok (found, next))) (notTid : member ≠ tid)
    (notTgid : member ≠ tgid) : next.table member = machine.table member := by
  cases outcome with
  | leader self led => exact ensure_table_of_ne notTgid
  | stays => rfl
  | shares moves shares => exact ensure_table_of_ne notTgid
  | leaves leaves empty counted => exact ensure_table_of_ne notTgid
  | enters enters counted =>
      exact (ensure_table_of_ne notTgid).trans (Function.update_of_ne notTid ..)

/-- The other threads are left alone. -/
theorem Outcome.untouched {found : Option (Ref Thread)} {ref : Ref Thread}
    (outcome : Outcome machine tgid tid (.ok (found, next))) (sound : Sound none machine)
    (live : machine.store.threads.get? ref = some thread) (notTid : thread.tid ≠ tid)
    (notTgid : thread.tid ≠ tgid) : next.store.threads.get? ref = some thread := by
  have inTable := sound.listed ref thread live
  have inEnsured := ensure_table_of_some inTable tgid
  have ensured := get?_ensure live tgid
  have tabled := (sound.ensure tgid).tabled
  cases outcome with
  | leader self led =>
      rw [State.modifyThread_store, Store.modifyThread_threads,
        Heap.get?_modify_of_ne _ (ne_of_tid_ne tabled led inEnsured notTgid), ensured]
  | stays member found _ stays =>
      rw [State.modifyThread_store, Store.modifyThread_threads,
        Heap.get?_modify_of_ne _ (ne_of_tid_ne sound.tabled found inTable notTid), live]
  | shares moves shares =>
      have foundEnsured := ensure_table_of_some moves.found tgid
      rw [State.modifyThread_store, Store.modifyThread_threads,
        Heap.get?_modify_of_ne _ (ne_of_tid_ne tabled moves.led inEnsured notTgid),
        State.modifyThread_store, Store.modifyThread_threads,
        Heap.get?_modify_of_ne _ (ne_of_tid_ne tabled foundEnsured inEnsured notTid), ensured]
  | leaves leaves empty counted =>
      obtain ⟨_, moves, -⟩ := leaves.moves
      have foundEnsured := ensure_table_of_some moves.found tgid
      rw [joined, Store.modifyThread_threads,
        Heap.get?_modify_of_ne _ (ne_of_tid_ne tabled moves.led inEnsured notTgid),
        Store.modifyThread_threads,
        Heap.get?_modify_of_ne _ (ne_of_tid_ne tabled foundEnsured inEnsured notTid)]
      exact ensured
  | @enters leader object new enters counted =>
      have entered := ((sound.enroll enters.absent tgid).ensure tgid).tabled
      have enrolled : (machine.enroll tgid tid).store.threads.get? ref = some thread :=
        Heap.get?_alloc_of_some _ live
      have inEnrolled := ensure_table_of_some (enroll_table_of_some enters.absent inTable tgid) tgid
      have foundEntered : ((machine.enroll tgid tid).ensure tgid).table tid =
          some machine.store.threads.nextRef :=
        (ensure_table_of_ne enters.member).trans (Function.update_self ..)
      rw [joined, Store.modifyThread_threads,
        Heap.get?_modify_of_ne _ (ne_of_tid_ne entered enters.led inEnrolled notTgid),
        Store.modifyThread_threads,
        Heap.get?_modify_of_ne _ (ne_of_tid_ne entered foundEntered inEnrolled notTid)]
      exact get?_ensure enrolled tgid

end Plain

end DwBpf
