import DwBpf.Event.Visit
import DwBpf.Machine.Regrouping

/-! # The maps of different processes

Threads share maps exactly when they are in the same group, in every run whose
lookups never find the leader of a group at the head of it without its company
(`DwBpf.runs_isolate`). A thread that becomes the leader of a group keeps the maps
it shares with the group it comes from.
-/

namespace DwBpf

/-- If the lookup of `(tgid, tid)` gets to the leader of `tgid`, and the leader is
in another group, then no third thread is in either of the two groups. -/
def Store.Parts (store : Store) (tgid tid : Pid) : Prop :=
  (tid ≠ tgid → ∀ th thread, store.threads.get? th = some thread → thread.tid = tid →
    thread.tgid ≠ tgid) →
  ∀ leader lead, store.threads.get? leader = some lead → lead.tid = tgid → lead.tgid ≠ tgid →
    ∀ th thread, store.threads.get? th = some thread → thread.tid ≠ tgid → thread.tid ≠ tid →
      thread.tgid ≠ lead.tgid ∧ thread.tgid ≠ tgid

namespace Plain

variable {machine next : Plain} {tgid tid : Pid} {th : Ref Thread}

/-- The lookup of a thread that is at home does not get to the leader, or the leader is in
its own group. -/
theorem parts_of_home (sound : Sound none machine) (home : Home machine tgid tid th) :
    machine.store.Parts tgid tid := by
  obtain ⟨found, thread, live, group⟩ := home
  have own : thread.tid = tid := by
    obtain ⟨stored, isLive, own⟩ := sound.tabled tid th found
    cases live.symm.trans isLive
    exact own
  intro outside leader lead leads leaderOwn moved
  by_cases self : tid = tgid
  · have led := sound.listed leader lead leads
    rw [leaderOwn, ← self, found] at led
    cases led
    cases live.symm.trans leads
    exact absurd group moved
  · exact absurd group (outside self th thread live own)

/-- What the threads of a store say, said of the groups. -/
theorem clear_of_parts (parts : machine.store.Parts tgid tid) (tabled : machine.Tabled)
    (outside : tid ≠ tgid → ∀ maps, machine.groups tid ≠ some (tgid, maps))
    (mapped : ∀ th thread, machine.store.threads.get? th = some thread →
      ∃ maps, thread.maps = some maps)
    (listed : ∀ th thread, machine.store.threads.get? th = some thread →
      machine.table thread.tid = some th) :
    machine.groups.Clear tgid tid := by
  intro other space led leads member its kept notLeader notJoins stays
  obtain ⟨leader, lead, -, leaderLive, leaderOwn, rfl, -⟩ := (groups_eq_some tabled).mp led
  obtain ⟨ref, thread, -, live, rfl, rfl, -⟩ := (groups_eq_some tabled).mp stays
  refine parts ?_ leader lead leaderLive leaderOwn leads ref thread live notLeader notJoins
  intro notSelf th joining joiningLive own inGroup
  obtain ⟨maps, has⟩ := mapped th joining joiningLive
  refine outside notSelf maps ((groups_eq_some tabled).mpr ⟨th, joining, ?_, joiningLive, own,
    inGroup, has⟩)
  rw [← own]
  exact listed th joining joiningLive

/-- Work on threads leaves the groups alone. -/
theorem groups_steady (steady : machine.store.Steady next.store)
    (table : next.table = machine.table) :
    next.groups = machine.groups := by
  funext member
  unfold groups
  rw [table]
  cases machine.table member with
  | none => rfl
  | some th =>
      have same := steady.threads th
      simp only [Option.bind_eq_bind, Option.bind_some]
      cases live : machine.store.threads.get? th with
      | none =>
          rw [live, Option.map_none, Option.map_eq_none_iff] at same
          rw [same]
      | some thread =>
          obtain ⟨after, afterLive, core⟩ := steady.live live
          simp only [Thread.core, Prod.mk.injEq] at core
          simp only [afterLive, Option.bind_some, core.1, core.2.2.1]

theorem sound_unused (sound : Sound none machine) :
    ∀ member its kept, machine.groups member = some (its, kept) →
      kept ≠ machine.store.maps.nextRef := by
  rintro member its kept isMember rfl
  obtain ⟨th, thread, -, live, -, -, has⟩ := (groups_eq_some sound.tabled).mp isMember
  obtain ⟨object, stored⟩ := sound.live th thread _ live has
  exact Heap.ne_nextRef stored rfl

/-- The groups of a machine are separated and led. -/
structure Isolated (machine : Plain) : Prop where
  separated : machine.groups.Separated
  led : machine.groups.Led

theorem isolated_new : Isolated Plain.new := ⟨nofun, nofun⟩

theorem Visited.isolated {visit : Visit} {middle : Plain}
    (visited : Visited visit machine tgid tid th middle next) (isolated : Isolated machine)
    (sound : Sound none machine) (parts : machine.store.Parts tgid tid) : Isolated next := by
  have same : next.groups = middle.groups := groups_steady visited.steady visited.table
  rcases visited.outcome.groups_eq sound with stays | ⟨joins, outside⟩
  · rw [stays] at same
    exact ⟨same ▸ isolated.separated, same ▸ isolated.led⟩
  · have clear := clear_of_parts parts sound.tabled outside
      (fun th thread live => sound.mapped th thread live (Option.some_ne_none th)) sound.listed
    rw [joins] at same
    exact ⟨same ▸ Groups.separated_join isolated.separated isolated.led clear (sound_unused sound),
      same ▸ Groups.led_join isolated.led⟩

end Plain

/-- In every run whose lookups part no group, two threads of the table have the
same maps exactly when they have the same tgid. -/
theorem runs_isolate {calls : List Call} {replies : List Reply} {machine : Machine}
    (each : EachStep Machine.step (fun machine call =>
      call.looks = true → machine.store.Parts call.pair.1 call.pair.2) calls Machine.new)
    (ran : runAll Machine.step calls Machine.new = .ok (replies, machine))
    {th th' : Ref Thread} {thread thread' : Thread} (first : machine.Holds th thread)
    (second : machine.Holds th' thread') :
    thread.maps = thread'.maps ↔ thread.tgid = thread'.tgid := by
  obtain ⟨plain, matched, isolated⟩ := Machine.runs_invariant
    (fun store call => call.looks = true → store.Parts call.pair.1 call.pair.2)
    Machine.matches_new Plain.isolated_new
      (fun call plain reply next sound isolated meets stepped =>
      (Plain.step_invariant (fun plain tgid tid => plain.store.Parts tgid tid)
        (fun _ _ _ _ sound home => Plain.parts_of_home sound home) sound meets
        (fun _ _ _ _ _ _ _ _ isolated sound parts visited =>
          visited.isolated isolated sound parts) isolated stepped).1) each ran
  have sound := matched.2
  rw [Machine.holds_iff matched] at first second
  obtain ⟨maps, -, has, -⟩ := sound.valid.mapped th thread first
  obtain ⟨maps', -, has', -⟩ := sound.valid.mapped th' thread' second
  have member := Plain.groups_of_has (sound.listed th thread first) first has
  have member' := Plain.groups_of_has (sound.listed th' thread' second) second has'
  rw [has, has', Option.some.injEq]
  exact isolated.separated _ _ _ _ _ _ member member'

theorem runs_isolate_sample :
    EachStep Machine.step (fun machine call =>
        call.looks = true → machine.store.Parts call.pair.1 call.pair.2) [.sample 1 2]
        Machine.new ∧
      ∃ replies machine th th' thread thread',
        runAll Machine.step [.sample 1 2] Machine.new = .ok (replies, machine) ∧
        th ≠ th' ∧ machine.Holds th thread ∧ machine.Holds th' thread' ∧
        (thread.maps = thread'.maps ↔ thread.tgid = thread'.tgid) := by
  have each : EachStep Machine.step (fun machine call =>
      call.looks = true → machine.store.Parts call.pair.1 call.pair.2) [.sample 1 2]
      Machine.new :=
    ⟨fun _ _ _ _ leads => (nomatch leads), fun _ _ _ => trivial⟩
  have run : ∃ replies machine, runAll Machine.step [.sample 1 2] Machine.new =
      .ok (replies, machine) ∧ ∃ thread thread', machine.Holds ⟨0⟩ thread ∧
        machine.Holds ⟨1⟩ thread' := by
    refine ⟨_, _, rfl, _, _, ⟨⟨2, ?_⟩, rfl⟩, ⟨⟨1, ?_⟩, rfl⟩⟩
    · decide
    · decide
  obtain ⟨replies, machine, ran, thread, thread', first, second⟩ := run
  exact ⟨each, replies, machine, ⟨0⟩, ⟨1⟩, thread, thread', ran, by decide, first, second,
    runs_isolate each ran first second⟩

/-- A thread of process 1 that comes back as process 2 keeps the maps of process 1. -/
theorem formerMember_keeps_maps :
    ∃ replies machine, runAll Machine.step [.sample 1 2, .sample 2 2] Machine.new =
        .ok (replies, machine) ∧
      ∃ th th' thread thread', machine.Holds th thread ∧ machine.Holds th' thread' ∧
        thread.maps = thread'.maps ∧ thread.tgid ≠ thread'.tgid := by
  refine ⟨_, _, rfl, ⟨0⟩, ⟨1⟩, _, _, ⟨⟨2, ?_⟩, rfl⟩, ⟨⟨1, ?_⟩, rfl⟩, ?_, ?_⟩
  · decide
  · decide
  · rfl
  · decide

end DwBpf
