import DwBpf.Event.Accounting
import DwBpf.Machine.Regrouping

/-! # References to threads

Recording maps gives every reference to a thread back, so that between two such
calls each thread has the one of the table (`DwBpf.runs_conserve`), unless a
thread moves to a leader whose maps it has already. Resolving a sample and
iterating over maps never give the reference back that their lookup returns.
-/

namespace DwBpf

/-- The thread `tid`, if it moves to the group `tgid`, does not have the maps of
its leader yet. -/
def Store.Balanced (store : Store) (tgid tid : Pid) : Prop :=
  tid ≠ tgid → ∀ th thread leader lead, store.threads.get? th = some thread → thread.tid = tid →
    thread.tgid ≠ tgid → store.threads.get? leader = some lead → lead.tid = tgid →
    thread.maps ≠ lead.maps

/-- Whether a call records maps. -/
def Call.records : Call → Bool
  | .threadMap .. => true
  | _ => false

namespace Plain

variable {machine next : Plain} {tgid tid : Pid} {th leader : Ref Thread} {thread object : Thread}

/-- Each thread has the reference of the table only. -/
def Single (machine : Plain) : Prop :=
  ∀ th thread, machine.store.threads.get? th = some thread → thread.refcnt = 1

/-- Each thread has the reference of the table, and `held` has another. -/
def Held (held : Ref Thread) (machine : Plain) : Prop :=
  ∀ th thread, machine.store.threads.get? th = some thread →
    thread.refcnt = if th = held then 2 else 1

theorem balanced_of_home (sound : Sound none machine) (home : Home machine tgid tid th) :
    machine.store.Balanced tgid tid := by
  obtain ⟨found, thread, live, group⟩ := home
  intro _ other moving leader lead movingLive own moves _ _
  have listed := sound.listed other moving movingLive
  rw [own, found] at listed
  cases listed
  cases live.symm.trans movingLive
  exact absurd group moves

/-- A leader that shares its maps with a thread that moves to it was there before the
lookup: a new one would have maps that no other thread has. -/
theorem Moves.leader_of_shares (moves : Moves machine tgid tid th thread leader object)
    (sound : Sound none machine) (shares : thread.maps = object.maps) :
    machine.store.threads.get? leader = some object ∧ object.tid = tgid := by
  cases led : machine.table tgid with
  | none =>
      obtain ⟨maps, object', has, isLive⟩ := sound.valid.mapped th thread moves.live
      have isNew : object.maps = some machine.store.maps.nextRef := by
        have found := moves.led
        have leads := moves.leads
        simp only [Plain.ensure, led, Function.update_self, Option.some.injEq] at found leads
        rw [← found, Heap.get?_alloc_nextRef] at leads
        rw [← Option.some.inj leads]
      rw [shares, isNew] at has
      cases has
      exact absurd rfl (Heap.ne_nextRef isLive)
  | some ref =>
      obtain ⟨lead, leads, leadOwn⟩ := sound.tabled tgid ref led
      have found := moves.led
      have foundLive := moves.leads
      rw [ensure_of_some led] at found foundLive
      cases led.symm.trans found
      cases leads.symm.trans foundLive
      exact ⟨leads, leadOwn⟩

theorem Moves.not_balanced (moves : Moves machine tgid tid th thread leader object)
    (sound : Sound none machine) (shares : thread.maps = object.maps) :
    ¬ machine.store.Balanced tgid tid := by
  intro balanced
  obtain ⟨leads, leadOwn⟩ := moves.leader_of_shares sound shares
  obtain ⟨stored, live, own⟩ := sound.tabled tid th moves.found
  cases live.symm.trans moves.live
  exact balanced moves.member th thread leader object live own moves.moves leads leadOwn shares

theorem Single.ensure (single : machine.Single) (tgid : Pid) : (machine.ensure tgid).Single := by
  unfold Plain.ensure
  cases machine.table tgid with
  | some leader => exact single
  | none =>
      intro th thread live
      rcases Heap.get?_alloc_eq_some.mp live with ⟨-, rfl⟩ | wasLive
      · rfl
      · exact single th thread wasLive

theorem Single.enroll (single : machine.Single) (tgid tid : Pid) :
    (machine.enroll tgid tid).Single := by
  intro th thread live
  rcases Heap.get?_alloc_eq_some.mp live with ⟨-, rfl⟩ | wasLive
  · rfl
  · exact single th thread wasLive

theorem Single.held {change : Thread → Thread} {next : Plain} (single : machine.Single)
    (threads : next.store.threads = machine.store.threads.modify th change)
    (retains : ∀ thread, (change thread).refcnt = thread.refcnt + 1) : Held th next := by
  intro ref thread live
  rw [threads] at live
  obtain ⟨before, wasLive, rfl⟩ := Heap.get?_modify_eq_some.mp live
  have one := single ref before wasLive
  split
  · rw [retains, one]
    rfl
  · exact one

/-- A change of a thread that leaves its counter leaves what is held. -/
theorem Held.modify {change : Thread → Thread} {ref : Ref Thread} {next : Plain}
    (held : Held th machine)
    (threads : next.store.threads = machine.store.threads.modify ref change)
    (keeps : ∀ thread, (change thread).refcnt = thread.refcnt) : Held th next := by
  intro other thread live
  rw [threads] at live
  obtain ⟨before, wasLive, rfl⟩ := Heap.get?_modify_eq_some.mp live
  have count := held other before wasLive
  by_cases same : other = ref
  · rw [if_pos same, keeps]
    exact count
  · rw [if_neg same]
    exact count

theorem Single.held_joined (single : machine.Single) (tgid : Pid) (th leader : Ref Thread)
    (new : Ref Maps) : Held th (machine.joined tgid th leader new) := by
  let shared := machine.store.modifyMaps new fun maps => { maps with refcnt := maps.refcnt + 1 }
  have joins : Held th ⟨shared.modifyThread th fun thread =>
      { retainedIn tgid thread with maps := some new }, machine.table⟩ :=
    single.held rfl fun _ => rfl
  exact joins.modify rfl fun _ => rfl

/-- A balanced lookup takes one reference, to the thread it returns. -/
theorem Outcome.held {found : Option (Ref Thread)}
    (outcome : Outcome machine tgid tid (.ok (found, next))) (sound : Sound none machine)
    (balanced : machine.store.Balanced tgid tid) (single : machine.Single) :
    ∃ th, found = some th ∧ Held th next := by
  cases outcome with
  | leader self led => exact ⟨_, rfl, (single.ensure tgid).held rfl fun _ => rfl⟩
  | stays => exact ⟨_, rfl, single.held rfl fun _ => rfl⟩
  | shares moves shares => exact absurd balanced (moves.not_balanced sound shares)
  | @leaves th leader _ old new left leaves empty counted =>
      have dropped : Single ⟨(machine.ensure tgid).store.dropMaps old left,
          (machine.ensure tgid).table⟩ := single.ensure tgid
      exact ⟨_, rfl, dropped.held_joined tgid th leader new⟩
  | @enters leader _ new enters counted =>
      exact ⟨_, rfl, ((single.enroll tgid tid).ensure tgid).held_joined tgid _ leader new⟩

/-- Recording a map gives the reference back. -/
theorem Held.recorded {event : MmapEvent} {store : Store} {dso : Ref Dso} {found : Store}
    {maps : Ref Maps} {object : Maps} {path : List (Frame (Ref Map))} {table : Table}
    {thread : Thread} (held : Held th machine)
    (live : machine.store.threads.get? th = some thread)
    (recorded : Recorded event machine.store th store dso found maps object path) :
    Single ⟨store, table⟩ := by
  intro ref after isLive
  by_cases same : ref = th
  · subst same
    obtain ⟨stored, storedLive, refcnt⟩ := recorded.counted thread live
    cases isLive.symm.trans storedLive
    rw [refcnt, held ref thread live, if_pos rfl]
    rfl
  · have untouched := recorded.others ref same
    rw [show store.threads.get? ref = some after from isLive] at untouched
    rw [held ref after untouched.symm, if_neg same]

end Plain

/-- The visits of a call that records maps record maps. -/
theorem Call.visits_of_records {call : Call} {visit : Visit} {pair : Pid × Pid}
    (records : call.records = true) (member : visit ∈ call.visits)
    (looks : visit.pair? = some pair) : ∃ event created, visit = .record event created := by
  cases call with
  | threadMap tgid tid text scratch created =>
      rcases visits_threadMap_cases member with rfl | ⟨event, same, -⟩
      · cases looks
      · exact ⟨event, created, same⟩
  | resolveCallchain st uc created unwinder => cases records
  | dlIteratePhdr tgid callback => cases records

/-- Where every lookup is balanced, a call leaves each thread with the one reference of
the table. -/
theorem Plain.step_single {call : Call} {machine next : Plain} {reply : Reply}
    (sound : Sound none machine) (accounted : machine.store.Accounted) (single : machine.Single)
    (records : call.records = true)
    (balanced : call.looks = true → machine.store.Balanced call.pair.1 call.pair.2)
    (stepped : Plain.step call machine = .ok (reply, next)) :
    next.store.Accounted ∧ next.Single := by
  have kept : ∀ visit ∈ call.visits, ∀ plain tgid tid th middle after,
      plain.store.Accounted ∧ plain.Single → Sound none plain → plain.store.Balanced tgid tid →
      Visited visit plain tgid tid th middle after → after.store.Accounted ∧ after.Single := by
    rintro visit member plain tgid tid th middle after ⟨accounted, single⟩ plainSound balanced
      visited
    refine ⟨visited.accounted accounted, ?_⟩
    obtain ⟨event, created, rfl⟩ := Call.visits_of_records records member visited.pair
    obtain ⟨th', same, held⟩ := visited.outcome.held plainSound balanced single
    cases same
    obtain ⟨-, thread, live, -⟩ := visited.home
    have accountedMiddle := accounted.regroups visited.outcome.regroups
    obtain ⟨dso, found, maps, object, path, recorded⟩ := recorded_of_recordMap
      accountedMiddle.interned live (visited.sound.linked th thread live) visited.worked
    exact held.recorded live recorded
  exact (step_invariant (fun plain tgid tid => plain.store.Balanced tgid tid)
    (fun _ _ _ _ sound home => balanced_of_home sound home) sound balanced kept
    ⟨accounted, single⟩ stepped).1

/-- In every run of balanced calls that record maps, each thread of the table has
exactly one reference between two calls. -/
theorem runs_conserve {calls : List Call} {replies : List Reply} {machine : Machine}
    (each : EachStep Machine.step (fun machine call => call.records = true ∧
      (call.looks = true → machine.store.Balanced call.pair.1 call.pair.2)) calls Machine.new)
    (ran : runAll Machine.step calls Machine.new = .ok (replies, machine)) {th : Ref Thread}
    {thread : Thread} (held : machine.Holds th thread) : thread.refcnt = 1 := by
  have start : Store.empty.Accounted ∧ Plain.new.Single := ⟨accounted_empty, nofun⟩
  obtain ⟨plain, matched, -, single⟩ := Machine.runs_invariant
    (fun store call => call.records = true ∧
      (call.looks = true → store.Balanced call.pair.1 call.pair.2)) Machine.matches_new start
    (fun _ _ _ _ sound before meets stepped =>
      Plain.step_single sound before.1 before.2 meets.1 meets.2 stepped) each ran
  exact single th thread ((Machine.holds_iff matched).mp held)

theorem runs_conserve_mapLs :
    EachStep Machine.step (fun machine call => call.records = true ∧
        (call.looks = true → machine.store.Balanced call.pair.1 call.pair.2))
        [.mapLs 1 1, .mapLs 1 1] Machine.new ∧
      ∃ replies machine thread, runAll Machine.step [.mapLs 1 1, .mapLs 1 1] Machine.new =
        .ok (replies, machine) ∧ machine.Holds ⟨0⟩ thread ∧ thread.refcnt = 1 := by
  have each : EachStep Machine.step (fun machine call => call.records = true ∧
      (call.looks = true → machine.store.Balanced call.pair.1 call.pair.2))
      [.mapLs 1 1, .mapLs 1 1] Machine.new :=
    ⟨⟨rfl, fun _ other => absurd rfl other⟩, fun _ _ _ =>
      ⟨⟨rfl, fun _ other => absurd rfl other⟩, fun _ _ _ => trivial⟩⟩
  have run : ∃ replies machine thread, runAll Machine.step [.mapLs 1 1, .mapLs 1 1] Machine.new =
      .ok (replies, machine) ∧ machine.Holds ⟨0⟩ thread := by
    refine ⟨_, _, _, rfl, ⟨⟨1, ?_⟩, rfl⟩⟩
    decide
  obtain ⟨replies, machine, thread, ran, held⟩ := run
  exact ⟨each, replies, machine, thread, ran, held, runs_conserve each ran held⟩

/-- A resolved sample leaves its thread with a second reference. -/
theorem sample_keeps_reference :
    ∃ replies machine thread, runAll Machine.step [.sample 1 1] Machine.new =
      .ok (replies, machine) ∧ machine.Holds ⟨0⟩ thread ∧ thread.refcnt ≠ 1 := by
  refine ⟨_, _, _, rfl, ⟨⟨1, ?_⟩, rfl⟩, ?_⟩
  · decide
  · decide

end DwBpf
