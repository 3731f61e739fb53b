import DwBpf.Event.Callchain
import DwBpf.Event.OneProcess
import DwBpf.Task.Delivery

/-! # The threads that resolve

`ResolveCallchainTask::run` makes a machine of its own and resolves the contexts it pops
through one stacktrace. `syscall.cc` and `syscall_parallel.cc` push the contexts of the
traced process only. What they push is a pointer into the perf buffer, and the context there
is read again when it is resolved. As long as the records stay what they were, every machine
stays with the threads of the traced process, and in no order of the steps does a context make
a thread fail an assertion of `machine.c` (`DwBpf.Task.workers_keep_process`). A record that is
overwritten before it is resolved can (`DwBpf.Task.overwritten_fails_assertion`).
-/

namespace DwBpf.Task

/-- What a thread resolves with. -/
abbrev Resolver : Type := Machine × Option Stacktrace

/-- `ResolveCallchainTask::run` up to its loop: calls on a new machine, and a stacktrace
with room for `maxdepth` entries. The statuses are only printed. -/
def setUp (calls : List Call) (maxdepth : Int) : Except Fault Resolver := do
  let (_, machine) ← runAll Machine.step calls Machine.new
  return (machine, some ⟨maxdepth,
    if maxdepth < 0 then none else some (List.replicate maxdepth.toNat 0)⟩)

/-- The body of the loop. A fault ends the process, and so does `exit(1)` after a status
that is not 0. -/
def resolveSample (resolver : Resolver) (sample : Sample) : Option Resolver :=
  match sample.step resolver with
  | .ok (result, next) => if result.status = 0 then some next else none
  | .error _ => none

/-- A record of the perf buffer, to which the queue has a pointer: the context that
`unwind_ctx_handler` finds there, and what a thread finds there when it resolves it. The
buffer belongs to its reader again once the handler has returned. -/
structure Record where
  handed : UnwindCtx
  resolved : Sample

/-- Nothing was written over the record before it was resolved. -/
def Record.Kept (record : Record) : Prop := record.resolved.uc = record.handed

/-- The tracer of one of the examples. -/
def tracer {ω : Type} (keep : UnwindCtx → Bool) (start : ω → Resolver) :
    Program ω Record Resolver where
  keep record := keep record.handed
  start := start
  resolve resolver record := resolveSample resolver record.resolved

/-- `unwind_ctx_handler` of `syscall.cc` and `syscall_parallel.cc`. -/
def ofProcess (tgid : Pid) (uc : UnwindCtx) : Bool := uc.tgid = tgid

section Resolve

variable {resolver next : Resolver} {sample : Sample} {tgid : Pid}

theorem step_of_resolveSample (resolved : resolveSample resolver sample = some next) :
    ∃ result, sample.step resolver = .ok (result, next) ∧ result.status = 0 := by
  unfold resolveSample at resolved
  split at resolved
  case h_1 result after stepped =>
    split at resolved
    case isTrue zero =>
      cases resolved
      exact ⟨result, stepped, zero⟩
    case isFalse => cases resolved
  case h_2 => cases resolved

/-- Resolving one context after the other is a run. -/
theorem runAll_of_foldlM {samples : List Sample}
    (folded : samples.foldlM resolveSample resolver = some next) :
    ∃ results, runAll Sample.step samples resolver = .ok (results, next) ∧
      ∀ result ∈ results, result.status = 0 := by
  induction samples generalizing resolver with
  | nil =>
      cases folded
      exact ⟨[], rfl, fun _ member => absurd member List.not_mem_nil⟩
  | cons sample samples ih =>
      rw [List.foldlM_cons] at folded
      obtain ⟨middle, resolved, rest⟩ := Option.bind_eq_some_iff.mp folded
      obtain ⟨result, stepped, zero⟩ := step_of_resolveSample resolved
      obtain ⟨results, ran, zeros⟩ := ih rest
      refine ⟨result :: results, runAll_cons_eq_ok.mpr ⟨result, middle, results, stepped, ran, rfl⟩,
        ?_⟩
      intro other member
      obtain rfl | member := List.mem_cons.mp member
      · exact zero
      · exact zeros other member

/-- The call that resolves a sample. -/
def callOf (sample : Sample) (resolver : Resolver) : Call :=
  .resolveCallchain resolver.2 sample.uc sample.created sample.unwinder

theorem call_of_step {result : Resolved} (stepped : sample.step resolver = .ok (result, next)) :
    Machine.step (callOf sample resolver) resolver.1 = .ok (.resolved result, next.1) := by
  obtain ⟨⟨result, machine⟩, resolved, done⟩ := bind_eq_ok_iff.mp stepped
  cases done
  exact bind_eq_ok_iff.mpr ⟨(result, machine), resolved, rfl⟩

theorem call_of_error {failure : Fault} (failed : sample.step resolver = .error failure) :
    Machine.step (callOf sample resolver) resolver.1 = .error failure := by
  cases resolved : resolveCallchain Machine.findnewThread resolver.1 resolver.2 sample.uc
    sample.created sample.unwinder with
  | error failure' =>
      rw [Sample.step, resolved] at failed
      cases failed
      rw [Machine.step, callOf, Call.step, resolved]
      rfl
  | ok outcome =>
      rw [Sample.step, resolved] at failed
      cases failed

/-- Contexts of the process keep the machine to the process. -/
theorem oneProcess_of_foldlM {samples : List Sample} (one : resolver.1.OneProcess tgid)
    (own : ∀ sample ∈ samples, sample.uc.tgid = tgid)
    (folded : samples.foldlM resolveSample resolver = some next) : next.1.OneProcess tgid := by
  induction samples generalizing resolver with
  | nil =>
      cases folded
      exact one
  | cons sample samples ih =>
      rw [List.foldlM_cons] at folded
      obtain ⟨middle, resolved, rest⟩ := Option.bind_eq_some_iff.mp folded
      obtain ⟨result, stepped, -⟩ := step_of_resolveSample resolved
      have about : (callOf sample resolver).pair.1 = tgid := own sample List.mem_cons_self
      have first : middle.1.OneProcess tgid := one.step about (call_of_step stepped)
      exact ih first (fun other member => own other (List.mem_cons_of_mem _ member)) rest

theorem oneProcess_of_setUp {calls : List Call} {maxdepth : Int}
    (own : ∀ call ∈ calls, call.pair.1 = tgid) (ran : setUp calls maxdepth = .ok resolver) :
    resolver.1.OneProcess tgid := by
  obtain ⟨⟨replies, machine⟩, called, done⟩ := bind_eq_ok_iff.mp ran
  cases done
  refine runAll_invariant ?_ (Machine.oneProcess_new tgid)
    (eachStep_of_forall (fun call member _ => own call member) Machine.new) called
  intro call before reply after one own stepped
  exact one.step own stepped

end Resolve

section Workers

variable {ω : Type} [DecidableEq ω] [Fintype ω] {start : ω → Resolver}
  {system : System ω Record Resolver}

/-- A thread pops contexts that the handler accepted only, in the order they came. -/
theorem sublist_handed {τ σ : Type*} {program : Program ω τ σ} {system : System ω τ σ}
    (reached : program.Reaches system) (who : ω) :
    (system.resolved who ++ (system.worker who).inHand).Sublist
      (system.handed.filter program.keep) := by
  have delivered : system.handed.filter program.keep = _ := reached.delivered
  rw [← (reached.serves who).popped, delivered, List.append_assoc]
  exact (List.filter_sublist.map _).trans (List.sublist_append_left _ _)

/-- Whatever the order of the steps, as long as no record is overwritten before it is
resolved, every thread works through its contexts as if it were alone, its machine has the
threads of the traced process only, which share their maps, and the context it resolves next
fails no assertion of `machine.c`. -/
theorem workers_keep_process {tgid : Pid} {calls : ω → List Call} {maxdepth : Int}
    (own : ∀ who, ∀ call ∈ calls who, call.pair.1 = tgid)
    (ready : ∀ who, setUp (calls who) maxdepth = .ok (start who))
    (reached : (tracer (ofProcess tgid) start).Reaches system)
    (kept : ∀ record ∈ system.handed, record.Kept) (who : ω) :
    (∃ results, runAll Sample.step ((system.resolved who).map Record.resolved) (start who) =
        .ok (results, system.machine who) ∧ ∀ result ∈ results, result.status = 0) ∧
      (∀ th th' thread thread', (system.machine who).1.Holds th thread →
        (system.machine who).1.Holds th' thread' →
        thread.tgid = tgid ∧ thread.maps = thread'.maps) ∧
      ∀ record failed, system.worker who = .resolving record →
        record.resolved.step (system.machine who) = .error (.assertion failed) →
        failed.file ≠ .machine := by
  have folded : ((system.resolved who).map Record.resolved).foldlM resolveSample (start who) =
      some (system.machine who) := by
    rw [List.foldlM_map]
    exact (reached.serves who).machine
  have ours : ∀ record ∈ system.resolved who ++ (system.worker who).inHand,
      record.resolved.uc.tgid = tgid := by
    intro record member
    obtain ⟨handed, accepted⟩ := List.mem_filter.mp ((sublist_handed reached who).subset member)
    rw [kept record handed]
    exact of_decide_eq_true accepted
  have one : (system.machine who).1.OneProcess tgid := by
    refine oneProcess_of_foldlM (oneProcess_of_setUp (own who) (ready who)) ?_ folded
    intro sample member
    obtain ⟨record, isRecord, rfl⟩ := List.mem_map.mp member
    exact ours record (List.mem_append_left _ isRecord)
  refine ⟨runAll_of_foldlM folded, ?_, ?_⟩
  · intro th th' thread thread' first second
    exact one.shares first second
  · intro record failed here stepped same
    have member : record ∈ system.resolved who ++ (system.worker who).inHand := by
      rw [here]
      exact List.mem_append_right _ List.mem_cons_self
    have about : (callOf record.resolved (system.machine who)).pair.1 = tgid := ours record member
    exact one.step_avoids about _ (call_of_error stepped) (congrArg some same)

/-- The polling thread pushes a record, and a thread pops it. -/
def popFirst (record : Record) : List (Action (Fin 1) Record) :=
  [.poll, .records [record], .poll, .poll, .poll, .poll, .notify none] ++ .replicate 6 (.work 0)

/-- A thread that is about to resolve a context of the traced process. -/
theorem workers_keep_process_shell :
    ∃ (start : Fin 1 → Resolver) (system : System (Fin 1) Record Resolver),
      (∀ who, setUp [.mapLs 1 1] 2 = .ok (start who)) ∧
      (tracer (ofProcess 1) start).Reaches system ∧
      (∀ record ∈ system.handed, record.Kept) ∧
      system.worker 0 = .resolving ⟨.shell 1 1, .deep []⟩ ∧
      (∀ failed, (Sample.deep []).step (system.machine 0) = .error (.assertion failed) →
        failed.file ≠ .machine) := by
  have ready : ∃ resolver, setUp [.mapLs 1 1] 2 = .ok resolver := ⟨_, rfl⟩
  obtain ⟨resolver, ready⟩ := ready
  have run : ∃ system : System (Fin 1) Record Resolver,
      follow (tracer (ofProcess 1) fun _ => resolver).step (popFirst ⟨.shell 1 1, .deep []⟩)
        (.initial (tracer (ofProcess 1) fun _ => resolver)) = some system ∧
      system.handed = [⟨.shell 1 1, .deep []⟩] ∧
      system.worker 0 = .resolving ⟨.shell 1 1, .deep []⟩ := ⟨_, rfl, rfl, rfl⟩
  obtain ⟨system, followed, handed, here⟩ := run
  have own : ∀ _ : Fin 1, ∀ call ∈ [Call.mapLs 1 1], call.pair.1 = 1 := by decide
  have reached : (tracer (ofProcess 1) fun _ => resolver).Reaches system := ⟨_, followed⟩
  have kept : ∀ record ∈ system.handed, record.Kept := by
    intro record member
    rw [handed] at member
    rw [List.mem_singleton.mp member]
    rfl
  obtain ⟨-, -, avoids⟩ := workers_keep_process own (fun _ => ready) reached kept 0
  exact ⟨fun _ => resolver, system, fun _ => ready, reached, kept, here,
    fun failed => avoids _ failed here⟩

/-- The record of a context of the traced process is overwritten by one of a thread of
another process that has the same tid, and resolving it fails an assertion of `machine.c`. -/
theorem overwritten_fails_assertion :
    ∃ (start : Fin 1 → Resolver) (system : System (Fin 1) Record Resolver) (record : Record),
      (∀ who, setUp [.mapLs 1 1] 2 = .ok (start who)) ∧
      (tracer (ofProcess 1) start).Reaches system ∧ record.handed.tgid = 1 ∧
      system.worker 0 = .resolving record ∧
      record.resolved.step (system.machine 0) = .error (.assertion .brokenMaps) := by
  have ready : ∃ resolver, setUp [.mapLs 1 1] 2 = .ok resolver ∧
      (Sample.mk (.shell 5 1) true ⟨[], 0, []⟩).step resolver = .error (.assertion .brokenMaps) :=
    ⟨_, rfl, rfl⟩
  obtain ⟨resolver, ready, failed⟩ := ready
  have run : ∃ system : System (Fin 1) Record Resolver,
      follow (tracer (ofProcess 1) fun _ => resolver).step
        (popFirst ⟨.shell 1 1, .shell 5 1, true, ⟨[], 0, []⟩⟩)
        (.initial (tracer (ofProcess 1) fun _ => resolver)) = some system ∧
      system.worker 0 = .resolving ⟨.shell 1 1, .shell 5 1, true, ⟨[], 0, []⟩⟩ ∧
      system.machine 0 = resolver := ⟨_, rfl, rfl, rfl⟩
  obtain ⟨system, followed, here, same⟩ := run
  refine ⟨fun _ => resolver, system, _, fun _ => ready, ⟨_, followed⟩, rfl, here, ?_⟩
  rw [same]
  exact failed

end Workers

end DwBpf.Task
