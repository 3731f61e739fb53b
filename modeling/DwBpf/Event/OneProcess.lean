import DwBpf.Event.Assertions
import DwBpf.Event.Isolation

/-! # Runs about one process

The thread table can break when a thread moves from one process to another. As long as
all calls are about the same process no thread ever moves: every thread is in the group
of the process, all of them share one maps object, and no assertion of `machine.c`
fails (`DwBpf.oneProcess_runs`).
-/

namespace DwBpf

namespace Plain

variable {machine next : Plain} {tgid tid : Pid} {th : Ref Thread} {thread : Thread}

/-- All threads are in one group, and so share one maps object. -/
structure OneProcess (tgid : Pid) (machine : Plain) : Prop where
  isolated : Isolated machine
  grouped : ∀ member its kept, machine.groups member = some (its, kept) → its = tgid

theorem oneProcess_new (tgid : Pid) : OneProcess tgid Plain.new :=
  ⟨isolated_new, fun _ _ _ isMember => absurd isMember (by simp [groups, Plain.new])⟩

theorem OneProcess.tgid_eq (one : OneProcess tgid machine) (sound : Sound none machine)
    (live : machine.store.threads.get? th = some thread) : thread.tgid = tgid := by
  obtain ⟨maps, has⟩ := sound.mapped th thread live (Option.some_ne_none th)
  apply one.grouped thread.tid thread.tgid maps
  exact groups_of_has (sound.listed th thread live) live has

/-- No thread has to move. -/
theorem OneProcess.mayLeave (one : OneProcess tgid machine) (sound : Sound none machine)
    (tid : Pid) : machine.store.MayLeave tgid tid := by
  intro _ th thread maps object live _ moves
  exact absurd (one.tgid_eq sound live) moves

theorem OneProcess.parts (one : OneProcess tgid machine) (sound : Sound none machine)
    (tid : Pid) : machine.store.Parts tgid tid := by
  intro _ leader lead leads _ moved
  exact absurd (one.tgid_eq sound leads) moved

/-- A visit of a thread of the process brings in no other process. -/
theorem Visited.oneProcess {visit : Visit} {middle : Plain}
    (visited : Visited visit machine tgid tid th middle next) (one : OneProcess tgid machine)
    (sound : Sound none machine) : OneProcess tgid next := by
  refine ⟨visited.isolated one.isolated sound (one.parts sound tid), ?_⟩
  intro member its kept isMember
  rw [groups_steady visited.steady visited.table] at isMember
  obtain stays | ⟨joins, -⟩ := visited.outcome.groups_eq sound
  · rw [stays] at isMember
    exact one.grouped member its kept isMember
  · rw [joins, Groups.join] at isMember
    split at isMember
    · cases isMember
      rfl
    · exact one.grouped member its kept isMember

theorem OneProcess.step {call : Call} {reply : Reply} (one : OneProcess tgid machine)
    (sound : Sound none machine) (own : call.pair.1 = tgid)
    (stepped : Plain.step call machine = .ok (reply, next)) : OneProcess tgid next := by
  refine step_keeps sound ?_ one stepped
  intro visit member plain tgid' tid th middle next before plainSound visited
  have pair := Call.pair_of_mem member visited.pair
  obtain rfl : tgid' = tgid := by
    rw [← own, ← pair]
  exact visited.oneProcess before plainSound

end Plain

/-- A machine that has the threads of one process only. -/
def Machine.OneProcess (tgid : Pid) (machine : Machine) : Prop :=
  ∃ plain, Machine.Matches machine plain ∧ plain.OneProcess tgid

section OneProcess

variable {machine next : Machine} {tgid : Pid} {call : Call} {reply : Reply}

theorem Machine.oneProcess_new (tgid : Pid) : Machine.OneProcess tgid Machine.new :=
  ⟨Plain.new, Machine.matches_new, Plain.oneProcess_new tgid⟩

theorem Machine.OneProcess.step (one : machine.OneProcess tgid) (own : call.pair.1 = tgid)
    (stepped : Machine.step call machine = .ok (reply, next)) : next.OneProcess tgid := by
  obtain ⟨plain, matched, one⟩ := one
  have agree := Machine.agree_step call machine plain matched
  rw [stepped] at agree
  obtain ⟨⟨reply', after⟩, plainStepped, -, afterMatches⟩ := agree.ok_left
  exact ⟨after, afterMatches, one.step matched.2 own plainStepped⟩

theorem Machine.OneProcess.step_avoids (one : machine.OneProcess tgid)
    (own : call.pair.1 = tgid) : Avoids InMachine (Machine.step call machine) := by
  obtain ⟨plain, matched, one⟩ := one
  intro failure failed
  have agree := Machine.agree_step call machine plain matched
  rw [failed] at agree
  refine Plain.step_avoids matched.2 ?_ failure agree.error_left
  intro _
  rw [own]
  exact one.mayLeave matched.2 call.pair.2

/-- All threads of the machine are in the group, with the same maps. -/
theorem Machine.OneProcess.shares (one : machine.OneProcess tgid) {th th' : Ref Thread}
    {thread thread' : Thread} (first : machine.Holds th thread)
    (second : machine.Holds th' thread') :
    thread.tgid = tgid ∧ thread.maps = thread'.maps := by
  obtain ⟨plain, matched, one⟩ := one
  have sound := matched.2
  rw [Machine.holds_iff matched] at first second
  obtain ⟨maps, -, has, -⟩ := sound.valid.mapped th thread first
  obtain ⟨maps', -, has', -⟩ := sound.valid.mapped th' thread' second
  have member := Plain.groups_of_has (sound.listed th thread first) first has
  have member' := Plain.groups_of_has (sound.listed th' thread' second) second has'
  have grouped := one.tgid_eq sound first
  have grouped' := one.tgid_eq sound second
  refine ⟨grouped, ?_⟩
  rw [has, has', Option.some.injEq]
  exact (one.isolated.separated _ _ _ _ _ _ member member').mpr (grouped.trans grouped'.symm)

/-- A run whose calls are all about one process fails no assertion of `machine.c`, and
all threads it leaves share the maps of the process. -/
theorem oneProcess_runs {calls : List Call} (own : ∀ call ∈ calls, call.pair.1 = tgid) :
    (∀ failed, runAll Machine.step calls Machine.new = .error (.assertion failed) →
        failed.file ≠ .machine) ∧
      ∀ replies machine, runAll Machine.step calls Machine.new = .ok (replies, machine) →
        ∀ th th' thread thread', machine.Holds th thread → machine.Holds th' thread' →
          thread.tgid = tgid ∧ thread.maps = thread'.maps := by
  have kept : ∀ call before reply after, Machine.OneProcess tgid before → call.pair.1 = tgid →
      Machine.step call before = .ok (reply, after) → Machine.OneProcess tgid after :=
    fun call before reply after one own stepped => one.step own stepped
  have each : EachStep Machine.step (fun _ call => call.pair.1 = tgid) calls Machine.new :=
    eachStep_of_forall (fun call member _ => own call member) Machine.new
  constructor
  · intro failed ran same
    obtain ⟨call, before, one, own, stepFailed⟩ :=
      runAll_error kept (Machine.oneProcess_new tgid) each ran
    exact one.step_avoids own _ stepFailed (congrArg some same)
  · intro replies machine ran th th' thread thread' first second
    have one := runAll_invariant kept (Machine.oneProcess_new tgid) each ran
    exact one.shares first second

theorem oneProcess_runs_threads :
    (∀ call ∈ [Call.mapLs 1 2, .sample 1 3], call.pair.1 = 1) ∧
      ∃ replies machine th th' thread thread',
        runAll Machine.step [.mapLs 1 2, .sample 1 3] Machine.new = .ok (replies, machine) ∧
        th ≠ th' ∧ machine.Holds th thread ∧ machine.Holds th' thread' ∧
        thread.tgid = 1 ∧ thread.maps = thread'.maps := by
  have own : ∀ call ∈ [Call.mapLs 1 2, .sample 1 3], call.pair.1 = 1 := by decide
  have run : ∃ replies machine, runAll Machine.step [.mapLs 1 2, .sample 1 3] Machine.new =
      .ok (replies, machine) ∧ ∃ thread thread', machine.Holds ⟨0⟩ thread ∧
        machine.Holds ⟨2⟩ thread' := by
    refine ⟨_, _, rfl, _, _, ⟨⟨2, ?_⟩, rfl⟩, ⟨⟨3, ?_⟩, rfl⟩⟩
    · decide
    · decide
  obtain ⟨replies, machine, ran, thread, thread', first, second⟩ := run
  exact ⟨own, replies, machine, ⟨0⟩, ⟨2⟩, thread, thread', ran, by decide, first, second,
    (oneProcess_runs own).2 replies machine ran ⟨0⟩ ⟨2⟩ thread thread' first second⟩

end OneProcess

end DwBpf
