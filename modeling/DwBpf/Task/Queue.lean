import DwBpf.Foundation.Schedule

/-! # The queue between the tasks

In the examples one thread polls the perf buffer and pushes the contexts of the traced
process on a `Queue`, and other threads pop them there and resolve them (`queue.h`,
`stoppable.h`, `syscall_parallel.cc`; `syscall.cc` and `uprobe.cc` have one thread that
resolves). The queue is guarded by a mutex, and a thread that finds it empty waits on a
condition variable that `push` notifies. `DwBpf.Task.Program.step` is one step of one
thread between two places where another can come in.

What is pushed and popped are pointers to records in the memory of the perf buffer, which its
reader may use again once the handler has returned. So an item is a record, not what its
memory holds at one time, and nothing here depends on the memory staying what it was: `keep`
is what the handler made of the record, and `resolve` what a thread makes of it later. What
a thread resolves with is its own, the machine and the stacktrace.
-/

namespace DwBpf.Task

variable {ω τ σ : Type*}

/-- How far the thread of `EventPollTask::run` is. `batch` has the records that
`poll_perf_buffer` has yet to hand to `unwind_ctx_handler`. -/
inductive Poll (τ : Type*) where
  /-- At the condition of its loop. -/
  | asking
  /-- In `poll_perf_buffer`, with no record yet. -/
  | polling
  | handing (batch : List τ)
  /-- In `push`: the mutex is to be locked. -/
  | locking (item : τ) (batch : List τ)
  | pushing (item : τ) (batch : List τ)
  | unlocking (batch : List τ)
  | notifying (batch : List τ)
  | finished

/-- How far the thread of `ResolveCallchainTask::run` is. -/
inductive Resolve (τ : Type*) where
  /-- At the condition of its loop. -/
  | asking
  /-- In `pop`: the mutex is to be locked. -/
  | locking
  /-- At `while (queue_.empty())`. -/
  | testing
  /-- In `cond_.wait`. -/
  | sleeping
  /-- In `cond_.wait`, which locks the mutex again before it returns. -/
  | waking
  /-- At `queue_.front()`. -/
  | taking
  /-- At `queue_.pop()`. -/
  | dropping (val : τ)
  /-- At the end of `pop`, which unlocks the mutex. -/
  | leaving (val : τ)
  | resolving (val : τ)
  /-- Past the loop: the machine is deleted. -/
  | finished

def Resolve.isSleeping : Resolve τ → Bool
  | .sleeping => true
  | _ => false

/-- What the examples differ in: which records the handler pushes, what a thread starts
its loop with, and what it makes of a context. No result ends the process. -/
structure Program (ω τ σ : Type*) where
  keep : τ → Bool
  start : ω → σ
  resolve : σ → τ → Option σ

/-- The threads and what they share. The mutex has an owner: nobody, the polling thread
(`some none`) or one of the others. The last three fields only remember what happened:
the records handed to the handler, the contexts that `pop` took off the queue and for
whom, and those that each thread has resolved. -/
structure System (ω τ σ : Type*) where
  poll : Poll τ
  worker : ω → Resolve τ
  owner : Option (Option ω)
  queue : List τ
  stopPoll : Bool
  stop : ω → Bool
  machine : ω → σ
  exited : Bool
  handed : List τ
  received : List (ω × τ)
  resolved : ω → List τ

/-- A step of a thread, or something that happens to one. -/
inductive Action (ω τ : Type*) where
  /-- `ept.stop()`. -/
  | stopPoll
  /-- `rct->stop()`. -/
  | stop (who : ω)
  /-- The records `poll_perf_buffer` has waited for. -/
  | records (batch : List τ)
  /-- The next step of the polling thread. -/
  | poll
  /-- `cond_.notify_one()`, with the thread it wakes. -/
  | notify (woken : Option ω)
  /-- The next step of a thread that resolves. -/
  | work (who : ω)
  /-- `cond_.wait` ends with no notification. -/
  | spurious (who : ω)

namespace System

/-- Before the first step of any thread. -/
def initial (program : Program ω τ σ) : System ω τ σ where
  poll := .asking
  worker _ := .asking
  owner := none
  queue := []
  stopPoll := false
  stop _ := false
  machine := program.start
  exited := false
  handed := []
  received := []
  resolved _ := []

variable [DecidableEq ω]

def moveTo (system : System ω τ σ) (who : ω) (place : Resolve τ) : System ω τ σ :=
  { system with worker := Function.update system.worker who place }

/-- The polling thread goes on, unless it has to wait. -/
def pollStep (keep : τ → Bool) (system : System ω τ σ) : Option (System ω τ σ) :=
  match system.poll with
  | .asking => some { system with poll := if system.stopPoll then .finished else .polling }
  | .polling | .notifying _ | .finished => none
  | .handing [] => some { system with poll := .asking }
  | .handing (item :: batch) => some { system with
      poll := if keep item then .locking item batch else .handing batch
      handed := system.handed ++ [item] }
  | .locking item batch =>
      if system.owner.isNone then
        some { system with poll := .pushing item batch, owner := some none }
      else none
  | .pushing item batch =>
      some { system with poll := .unlocking batch, queue := system.queue ++ [item] }
  | .unlocking batch => some { system with poll := .notifying batch, owner := none }

/-- A thread that resolves goes on, unless it has to wait. -/
def workStep (resolve : σ → τ → Option σ) (who : ω) (system : System ω τ σ) :
    Option (System ω τ σ) :=
  match system.worker who with
  | .asking => some (system.moveTo who (if system.stop who then .finished else .locking))
  | .locking | .waking =>
      if system.owner.isNone then
        some { system.moveTo who .testing with owner := some (some who) }
      else none
  | .testing =>
      if system.queue.isEmpty then some { system.moveTo who .sleeping with owner := none }
      else some (system.moveTo who .taking)
  | .sleeping | .finished => none
  -- the front of an empty queue is undefined
  | .taking => system.queue.head?.map fun val => system.moveTo who (.dropping val)
  | .dropping val => some { system.moveTo who (.leaving val) with
      queue := system.queue.tail
      received := system.received ++ [(who, val)] }
  | .leaving val => some { system.moveTo who (.resolving val) with owner := none }
  | .resolving val =>
      match resolve (system.machine who) val with
      | none => some { system with exited := true }
      | some next => some { system.moveTo who .asking with
          machine := Function.update system.machine who next
          resolved := Function.update system.resolved who (system.resolved who ++ [val]) }

/-- A thread that waits on the condition variable is woken. -/
def wake (system : System ω τ σ) (who : ω) : Option (System ω τ σ) :=
  if (system.worker who).isSleeping then some (system.moveTo who .waking) else none

/-- `notify_one` wakes one of the threads that wait, if there is one. -/
def notifyOne [Fintype ω] (woken : Option ω) (system : System ω τ σ) : Option (System ω τ σ) :=
  match system.poll, woken with
  | .notifying batch, none =>
      if ∃ who, (system.worker who).isSleeping then none
      else some { system with poll := .handing batch }
  | .notifying batch, some who => wake { system with poll := .handing batch } who
  | _, _ => none

end System

/-- One action, unless the process has ended. A promise that is set twice throws. -/
def Program.step [DecidableEq ω] [Fintype ω] (program : Program ω τ σ) (action : Action ω τ)
    (system : System ω τ σ) : Option (System ω τ σ) :=
  if system.exited then none
  else match action with
  | .stopPoll =>
      if system.stopPoll then some { system with exited := true }
      else some { system with stopPoll := true }
  | .stop who =>
      if system.stop who then some { system with exited := true }
      else some { system with stop := Function.update system.stop who true }
  | .records batch =>
      match system.poll with
      | .polling => some { system with poll := .handing batch }
      | _ => none
  | .poll => system.pollStep program.keep
  | .notify woken => system.notifyOne woken
  | .work who => system.workStep program.resolve who
  | .spurious who => system.wake who

/-- The states that a schedule leads to. -/
def Program.Reaches [DecidableEq ω] [Fintype ω] (program : Program ω τ σ)
    (system : System ω τ σ) : Prop :=
  ∃ actions, follow program.step actions (.initial program) = some system

/-- Two threads that add up the even numbers among the records. -/
def Program.sums : Program (Fin 2) Nat Nat where
  keep item := item % 2 = 0
  start _ := 0
  resolve sum item := some (sum + item)

/-- The polling thread gets two records and pushes one of them. -/
def pushOne : List (Action (Fin 2) Nat) :=
  [.poll, .records [2, 3], .poll, .poll, .poll, .poll, .notify none, .poll]

/-- A thread pops a context and resolves it. -/
def popOne (who : Fin 2) : List (Action (Fin 2) Nat) := List.replicate 7 (.work who)

end DwBpf.Task
