import DwBpf.Task.Moves

/-! # No wake-up is lost

`push` notifies one thread after it has unlocked the mutex, so a context can be on the
queue while threads wait on the condition variable. Then there are at least as many
threads that will find a context in `pop` without being woken, or a notification is
still to come, as there are contexts on the queue (`DwBpf.Task.System.Awake`). So when
no thread can go on by itself, the queue is empty or no thread is left that would pop
(`DwBpf.Task.System.Quiet.queue_eq_nil`).
-/

namespace DwBpf.Task

variable {ω τ σ : Type*} [Fintype ω]

/-- In `pop`, not asleep, and without a context yet. -/
def Resolve.seeks : Resolve τ → Nat
  | .locking | .testing | .waking | .taking | .dropping _ => 1
  | _ => 0

/-- A context was pushed and nobody has been notified of it. -/
def Poll.owes : Poll τ → Nat
  | .unlocking _ | .notifying _ => 1
  | _ => 0

/-- While a thread sleeps, the contexts on the queue are taken care of without it. -/
def Awake (poll : Poll τ) (worker : ω → Resolve τ) (queue : List τ) : Prop :=
  ∀ who, worker who = .sleeping → queue.length ≤ poll.owes + tally Resolve.seeks worker

def System.Awake (system : System ω τ σ) : Prop :=
  Task.Awake system.poll system.worker system.queue

section Awake

variable {poll poll' : Poll τ} {worker : ω → Resolve τ} {queue queue' : List τ} {who : ω}
  {place : Resolve τ}

/-- The polling thread moves. -/
theorem Awake.pollTo (awake : Awake poll worker queue)
    (covered : queue'.length + poll.owes ≤ queue.length + poll'.owes) :
    Awake poll' worker queue' := by
  intro sleeper asleep
  have before := awake sleeper asleep
  omega

theorem awake_nil : Awake poll worker ([] : List τ) := fun _ _ => Nat.zero_le _

variable [DecidableEq ω]

/-- A thread moves, and does not fall asleep. -/
theorem Awake.moveTo (awake : Awake poll worker queue) (up : place ≠ .sleeping)
    (covered : queue'.length + poll.owes + (worker who).seeks ≤
      queue.length + poll'.owes + place.seeks) :
    Awake poll' (Function.update worker who place) queue' := by
  intro sleeper asleep
  have apart : sleeper ≠ who := by
    rintro rfl
    rw [Function.update_self] at asleep
    exact up asleep
  rw [Function.update_of_ne apart] at asleep
  have before := awake sleeper asleep
  have moved := tally_update Resolve.seeks worker who place
  omega

variable {program : Program ω τ σ} {system next : System ω τ σ} {action : Action ω τ}

/-- A thread that falls asleep has seen the queue empty, and who pushes a context notifies
later. -/
theorem System.Awake.move (fronted : system.Fronted) (awake : system.Awake)
    (moved : Move program action system next) : next.Awake := by
  cases moved with
  | exit => exact awake
  | stopPoll => exact awake
  | stop => exact awake
  | askPoll here =>
      apply Task.Awake.pollTo awake
      rw [here]
      exact Nat.add_le_add_left (Nat.zero_le _) _
  | records here batch => exact Task.Awake.pollTo awake (by rw [here]; rfl)
  | handed here => exact Task.Awake.pollTo awake (by rw [here]; rfl)
  | keep here kept => exact Task.Awake.pollTo awake (by rw [here]; rfl)
  | skip here skipped => exact Task.Awake.pollTo awake (by rw [here]; rfl)
  | lockPoll here free => exact Task.Awake.pollTo awake (by rw [here]; rfl)
  | push here =>
      apply Task.Awake.pollTo awake
      rw [here, List.length_append]
      exact Nat.le_refl _
  | unlockPoll here => exact Task.Awake.pollTo awake (by rw [here]; rfl)
  | notifyNone here none =>
      intro sleeper asleep
      have up := none sleeper
      rw [show system.worker sleeper = .sleeping from asleep] at up
      cases up
  | notify here asleep =>
      -- the thread that is woken seeks in place of the notification
      apply Task.Awake.moveTo awake (by simp)
      rw [here, asleep]
      exact Nat.le_refl _
  | ask here =>
      apply Task.Awake.moveTo awake
      · split
        · simp
        · simp
      · rw [here]
        exact Nat.add_le_add_left (Nat.zero_le _) _
  | lock here free =>
      apply Task.Awake.moveTo awake (by simp)
      obtain here | here := here
      · rw [here]
        exact Nat.le_refl _
      · rw [here]
        exact Nat.le_refl _
  | sleep here empty =>
      rw [System.Awake]
      dsimp only [moveTo]
      rw [empty]
      exact awake_nil
  | test here found => exact Task.Awake.moveTo awake (by simp) (by rw [here]; rfl)
  | take here front => exact Task.Awake.moveTo awake (by simp) (by rw [here]; rfl)
  | @drop _ who val here =>
      have front : (system.worker who).Fronts system.queue := fronted who
      rw [here] at front
      obtain ⟨rest, queued⟩ := List.head?_eq_some_iff.mp front
      apply Task.Awake.moveTo awake (by simp)
      rw [here, queued]
      dsimp only [List.tail_cons, List.length_cons, Resolve.seeks, moveTo]
      omega
  | leave here => exact Task.Awake.moveTo awake (by simp) (by rw [here]; rfl)
  | resolve here result => exact Task.Awake.moveTo awake (by simp) (by rw [here]; rfl)
  | spurious asleep =>
      apply Task.Awake.moveTo awake (by simp)
      rw [asleep]
      exact Nat.add_le_add_left (Nat.zero_le _) _

theorem Program.Reaches.awake (reached : program.Reaches system) : system.Awake := by
  apply reached.invariant
  · exact awake_nil
  · intro _ system next reached before moved
    exact before.move reached.fronted moved

end Awake

/-- A step of a thread, not something that happens to it. -/
def Action.isInternal : Action ω τ → Bool
  | .poll | .notify _ | .work _ => true
  | .stopPoll | .stop _ | .records _ | .spurious _ => false

variable [DecidableEq ω] {program : Program ω τ σ} {system : System ω τ σ} {who : ω}

/-- No thread can take a step. -/
def System.Quiet (program : Program ω τ σ) (system : System ω τ σ) : Prop :=
  ∀ action : Action ω τ, action.isInternal = true → program.step action system = none

theorem Program.step_of_running (program : Program ω τ σ) (running : system.exited = false) :
    program.step .poll system = system.pollStep program.keep ∧
      (∀ woken, program.step (.notify woken) system = system.notifyOne woken) ∧
      ∀ who, program.step (.work who) system = system.workStep program.resolve who := by
  simp [Program.step, running]

namespace System.Quiet

theorem pollStep (quiet : system.Quiet program) (running : system.exited = false) :
    system.pollStep program.keep = none := by
  rw [← (program.step_of_running running).1]
  exact quiet .poll rfl

theorem notifyOne (quiet : system.Quiet program) (running : system.exited = false)
    (woken : Option ω) : system.notifyOne woken = none := by
  rw [← (program.step_of_running running).2.1]
  exact quiet (.notify woken) rfl

theorem workStep (quiet : system.Quiet program) (running : system.exited = false) (who : ω) :
    system.workStep program.resolve who = none := by
  rw [← (program.step_of_running running).2.2]
  exact quiet (.work who) rfl

/-- Whoever owns the mutex could go on. -/
theorem owner_eq_none (quiet : system.Quiet program) (running : system.exited = false)
    (guarded : system.Guarded) (fronted : system.Fronted) : system.owner = none := by
  cases owned : system.owner with
  | none => rfl
  | some owner =>
      exfalso
      cases owner with
      | none =>
          have holds := guarded.poll.mpr owned
          have stuck := quiet.pollStep running
          unfold System.pollStep at stuck
          cases here : system.poll with
          | pushing item batch => simp [here] at stuck
          | unlocking batch => simp [here] at stuck
          | asking | polling | handing | locking | notifying | finished =>
              rw [here] at holds
              cases holds
      | some who =>
          have holds := (guarded.worker who).mpr owned
          have front := fronted who
          have stuck := quiet.workStep running who
          unfold System.workStep at stuck
          cases here : system.worker who with
          | testing =>
              rw [here] at stuck
              dsimp only at stuck
              split at stuck
              · cases stuck
              · cases stuck
          | taking =>
              rw [here] at stuck front
              have none : system.queue.head? = none := Option.map_eq_none_iff.mp stuck
              exact front (List.head?_eq_none_iff.mp none)
          | dropping val => simp [here] at stuck
          | leaving val => simp [here] at stuck
          | asking | locking | sleeping | waking | resolving | finished =>
              rw [here] at holds
              cases holds

/-- A thread that cannot go on sleeps, or is past its loop. -/
theorem worker_cases (quiet : system.Quiet program) (running : system.exited = false)
    (guarded : system.Guarded) (fronted : system.Fronted) (who : ω) :
    system.worker who = .sleeping ∨ system.worker who = .finished := by
  have free := quiet.owner_eq_none running guarded fronted
  have outside : (system.worker who).holds = false := guarded.not_holds_of_ne (by simp [free])
  have stuck := quiet.workStep running who
  unfold System.workStep at stuck
  cases here : system.worker who with
  | sleeping => exact .inl rfl
  | finished => exact .inr rfl
  | asking => simp [here] at stuck
  | locking => simp [here, free] at stuck
  | waking => simp [here, free] at stuck
  | resolving val =>
      rw [here] at stuck
      dsimp only at stuck
      split at stuck
      · cases stuck
      · cases stuck
  | testing | taking | dropping | leaving =>
      rw [here] at outside
      cases outside

/-- The polling thread waits for records, or is past its loop. -/
theorem poll_cases (quiet : system.Quiet program) (running : system.exited = false)
    (guarded : system.Guarded) (fronted : system.Fronted) :
    system.poll = .polling ∨ system.poll = .finished := by
  have free := quiet.owner_eq_none running guarded fronted
  have stuck := quiet.pollStep running
  unfold System.pollStep at stuck
  cases here : system.poll with
  | polling => exact .inl rfl
  | finished => exact .inr rfl
  | asking => simp [here] at stuck
  | handing batch =>
      cases batch with
      | nil => simp [here] at stuck
      | cons item batch => simp [here] at stuck
  | locking item batch => simp [here, free] at stuck
  | pushing item batch => simp [here] at stuck
  | unlocking batch => simp [here] at stuck
  | notifying batch =>
      exfalso
      by_cases asleep : ∃ who, (system.worker who).isSleeping = true
      · obtain ⟨who, sleeping⟩ := asleep
        have stuck := quiet.notifyOne running (some who)
        simp [System.notifyOne, System.wake, here, sleeping] at stuck
      · have stuck := quiet.notifyOne running none
        simp only [System.notifyOne, here, asleep] at stuck
        cases stuck

/-- A thread that sleeps while no other can go on has nothing to pop. -/
theorem queue_eq_nil (quiet : system.Quiet program) (running : system.exited = false)
    (reached : program.Reaches system) (asleep : system.worker who = .sleeping) :
    system.queue = [] := by
  have covered := reached.awake who asleep
  have none : tally Resolve.seeks system.worker = 0 := by
    rw [tally_eq_zero_iff]
    intro other
    obtain here | here := quiet.worker_cases running reached.guarded reached.fronted other
    · rw [here]
      rfl
    · rw [here]
      rfl
  have paid : system.poll.owes = 0 := by
    obtain here | here := quiet.poll_cases running reached.guarded reached.fronted
    · rw [here]
      rfl
    · rw [here]
      rfl
  exact List.length_eq_zero_iff.mp (by omega)

end System.Quiet

end DwBpf.Task
