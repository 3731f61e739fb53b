import DwBpf.Task.Delivery
import DwBpf.Task.Waking

/-! # The queue drains

With no record from the perf buffer and no wake-up without a cause, the threads come to
a stop after a bounded number of steps, in whatever order they take them. Unless the
process ends before, every context that the handler accepted is resolved by then, or no
thread is left to resolve it (`DwBpf.Task.queue_drains`).
-/

namespace DwBpf.Task

variable {ω τ σ : Type*} [Fintype ω] [DecidableEq ω]

/-- How many steps are left until a thread has to wait, if it finds the queue empty. -/
def Resolve.potential : Resolve τ → Nat
  | .sleeping | .finished => 0
  | .dropping _ => 1
  | .taking => 2
  | .testing => 3
  | .locking | .waking => 4
  | .asking => 5
  | .resolving _ => 6
  | .leaving _ => 7

/-- How many steps the polling thread has left, with those it causes: a context on the
queue is worth seven, and a thread that is woken four. -/
def Poll.potential : Poll τ → Nat
  | .polling | .finished => 0
  | .asking => 1
  | .handing batch => 20 * batch.length + 2
  | .notifying batch => 20 * batch.length + 8
  | .unlocking batch => 20 * batch.length + 9
  | .pushing _ batch => 20 * batch.length + 17
  | .locking _ batch => 20 * batch.length + 18

def System.potential (system : System ω τ σ) : Nat :=
  system.poll.potential + 7 * system.queue.length + tally Resolve.potential system.worker +
    (if system.exited then 0 else 1)

variable {program : Program ω τ σ} {system next last : System ω τ σ} {action : Action ω τ}

omit [DecidableEq ω] in
/-- The polling thread takes a step. -/
theorem System.potential_lt_of_poll (worker : next.worker = system.worker)
    (exited : next.exited = system.exited)
    (falls : next.poll.potential + 7 * next.queue.length <
      system.poll.potential + 7 * system.queue.length) :
    next.potential < system.potential := by
  rw [potential, potential, worker, exited]
  omega

/-- Another thread takes a step. -/
theorem System.potential_lt_of_worker {who : ω} {place : Resolve τ}
    (worker : next.worker = Function.update system.worker who place)
    (exited : next.exited = system.exited)
    (falls : next.poll.potential + 7 * next.queue.length + place.potential <
      system.poll.potential + 7 * system.queue.length + (system.worker who).potential) :
    next.potential < system.potential := by
  have moved := tally_update Resolve.potential system.worker who place
  rw [potential, potential, worker, exited]
  omega

/-- A step of a thread uses up potential. -/
theorem System.potential_lt (fronted : system.Fronted) (running : system.exited = false)
    (internal : action.isInternal = true) (moved : Move program action system next) :
    next.potential < system.potential := by
  cases moved with
  | exit =>
      simp only [potential, running]
      exact Nat.lt_succ_self _
  | stopPoll => cases internal
  | stop => cases internal
  | records here batch => cases internal
  | spurious asleep => cases internal
  | askPoll here =>
      refine potential_lt_of_poll rfl rfl ?_
      rw [here]
      dsimp only
      split
      · simp [Poll.potential]
      · simp [Poll.potential]
  | handed here => exact potential_lt_of_poll rfl rfl (by simp [here, Poll.potential])
  | keep here kept =>
      refine potential_lt_of_poll rfl rfl ?_
      simp only [here, Poll.potential, List.length_cons]
      omega
  | skip here skipped =>
      refine potential_lt_of_poll rfl rfl ?_
      simp only [here, Poll.potential, List.length_cons]
      omega
  | lockPoll here free => exact potential_lt_of_poll rfl rfl (by simp [here, Poll.potential])
  | push here =>
      refine potential_lt_of_poll rfl rfl ?_
      simp only [here, Poll.potential, List.length_append, List.length_singleton]
      omega
  | unlockPoll here => exact potential_lt_of_poll rfl rfl (by simp [here, Poll.potential])
  | notifyNone here awake => exact potential_lt_of_poll rfl rfl (by simp [here, Poll.potential])
  | notify here asleep =>
      refine potential_lt_of_worker rfl rfl ?_
      simp only [here, asleep, moveTo, Poll.potential, Resolve.potential]
      omega
  | ask here =>
      refine potential_lt_of_worker rfl rfl ?_
      rw [here]
      apply Nat.add_lt_add_left
      split
      · simp [Resolve.potential]
      · simp [Resolve.potential]
  | lock here free =>
      refine potential_lt_of_worker rfl rfl ?_
      obtain here | here := here
      · simp [here, moveTo, Resolve.potential]
      · simp [here, moveTo, Resolve.potential]
  | sleep here empty =>
      exact potential_lt_of_worker rfl rfl (by simp [here, moveTo, Resolve.potential])
  | test here found =>
      exact potential_lt_of_worker rfl rfl (by simp [here, moveTo, Resolve.potential])
  | take here front =>
      exact potential_lt_of_worker rfl rfl (by simp [here, moveTo, Resolve.potential])
  | @drop _ who val here =>
      have front : (system.worker who).Fronts system.queue := fronted who
      rw [here] at front
      obtain ⟨rest, queued⟩ := List.head?_eq_some_iff.mp front
      refine potential_lt_of_worker rfl rfl ?_
      simp only [here, queued, moveTo, Resolve.potential, List.tail_cons, List.length_cons]
      omega
  | leave here => exact potential_lt_of_worker rfl rfl (by simp [here, moveTo, Resolve.potential])
  | resolve here result =>
      exact potential_lt_of_worker rfl rfl (by simp [here, moveTo, Resolve.potential])

/-- The threads come to a stop, and have resolved every context by then unless all of
them were told to stop or the process has ended. -/
theorem queue_drains (reached : program.Reaches system) {actions : List (Action ω τ)}
    (internal : ∀ action ∈ actions, action.isInternal = true)
    (followed : follow program.step actions system = some last) :
    actions.length ≤ system.potential ∧
      (last.Quiet program → last.exited = true ∨ (∀ who, last.worker who = .finished) ∨
        last.handed.filter program.keep = last.received.map Prod.snd ∧
          ∀ who, last.receivedBy who = last.resolved who) := by
  constructor
  · have bound := length_le_of_follow program.Reaches
      (fun action system next reached stepped => reached.step stepped)
      (fun action member system next reached stepped => by
        obtain ⟨running, moved⟩ := move_of_step stepped
        exact system.potential_lt reached.fronted running (internal action member) moved)
      reached followed
    omega
  · intro quiet
    by_cases running : last.exited = true
    · exact .inl running
    · right
      have running : last.exited = false := Bool.eq_false_iff.mpr running
      have reached := reached.follow followed
      have idle := quiet.worker_cases running reached.guarded reached.fronted
      by_cases asleep : ∃ who, last.worker who = .sleeping
      · obtain ⟨sleeper, asleep⟩ := asleep
        right
        have empty := quiet.queue_eq_nil running reached asleep
        constructor
        · have delivered := reached.delivered
          rw [System.Delivered, empty] at delivered
          obtain here | here := quiet.poll_cases running reached.guarded reached.fronted
          · simpa [here, Poll.inHand] using delivered
          · simpa [here, Poll.inHand] using delivered
        · intro who
          have popped := (reached.serves who).popped
          obtain here | here := idle who
          · simpa [here, Resolve.inHand] using popped
          · simpa [here, Resolve.inHand] using popped
      · left
        intro who
        exact (idle who).resolve_left fun here => asleep ⟨who, here⟩

/-- One of the two threads resolves the context, and then both wait for another. -/
theorem queue_drains_sums :
    ∃ system last actions, Program.sums.Reaches system ∧ system.queue = [2] ∧
      (∀ action ∈ actions, action.isInternal = true) ∧
      follow Program.sums.step actions system = some last ∧ last.Quiet Program.sums ∧
      actions.length ≤ system.potential ∧
      (last.exited = true ∨ (∀ who, last.worker who = .finished) ∨
        last.handed.filter Program.sums.keep = last.received.map Prod.snd ∧
          ∀ who, last.receivedBy who = last.resolved who) := by
  have first : ∃ system, follow Program.sums.step pushOne (.initial .sums) = some system ∧
      system.queue = [2] ∧ ∃ last, follow Program.sums.step
        (popOne 0 ++ .replicate 3 (.work 0) ++ .replicate 3 (.work 1) ++ .replicate 2 .poll)
        system = some last ∧ last.poll = .polling ∧ last.worker 0 = .sleeping ∧
        last.worker 1 = .sleeping := ⟨_, rfl, rfl, _, rfl, rfl, rfl, rfl⟩
  obtain ⟨system, started, queued, last, followed, polling, zero, one⟩ := first
  have reached : Program.sums.Reaches system := ⟨_, started⟩
  have internal : ∀ action ∈ popOne 0 ++ .replicate 3 (.work 0) ++ .replicate 3 (.work 1) ++
      List.replicate 2 (Action.poll : Action (Fin 2) Nat), action.isInternal = true := by decide
  have quiet : last.Quiet Program.sums := by
    intro action internal
    have asleep : ∀ who, last.worker who = .sleeping := Fin.forall_fin_two.mpr ⟨zero, one⟩
    cases action with
    | poll => simp [Program.step, System.pollStep, polling]
    | notify woken => simp [Program.step, System.notifyOne, polling]
    | work who => simp [Program.step, System.workStep, asleep]
    | stopPoll | stop | records | spurious => cases internal
  obtain ⟨bound, drained⟩ := queue_drains reached internal followed
  exact ⟨system, last, _, reached, queued, internal, followed, quiet, bound, drained quiet⟩

end DwBpf.Task
