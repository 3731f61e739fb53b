import DwBpf.Task.Waking

/-! # How the tasks end

`stop` sets a promise that a thread looks at before it pops. It does not notify the
condition variable, so a thread that waits in `pop` for a context goes on only when
there is one. After the polling thread has finished no context is pushed any more: if
more threads are in `pop` than there are contexts on the queue, some thread stays there
in every continuation, and `main` never returns from its joins. If there are not, and
every thread was told to stop, they all finish (`DwBpf.Task.threads_join`).
-/

namespace DwBpf.Task

variable {ω τ σ : Type*} [Fintype ω] [DecidableEq ω]

/-- In `pop`, without a context yet. -/
def Resolve.awaits : Resolve τ → Nat
  | .locking | .testing | .sleeping | .waking | .taking | .dropping _ => 1
  | _ => 0

/-- How many threads are in `pop` without a context. -/
def System.awaiting (system : System ω τ σ) : Nat := tally Resolve.awaits system.worker

/-- What is left of the tasks after the polling thread has finished: no thread leaves `pop`
without a context, and none enters it after it was told to stop. -/
structure Remains (first system : System ω τ σ) : Prop where
  poll : system.poll = .finished
  fewer : first.awaiting + system.queue.length ≤ system.awaiting + first.queue.length
  stopped : (∀ who, first.stop who = true) →
    (∀ who, system.stop who = true) ∧
      system.awaiting + first.queue.length ≤ first.awaiting + system.queue.length

section Moves

variable {program : Program ω τ σ} {first system next last : System ω τ σ} {action : Action ω τ}
  {who : ω} {place : Resolve τ}

omit [DecidableEq ω] in
theorem remains_refl (ended : first.poll = .finished) : Remains first first :=
  ⟨ended, Nat.le_refl _, fun stopped => ⟨stopped, Nat.le_refl _⟩⟩

theorem System.awaiting_moveTo (system : System ω τ σ) (who : ω) (place : Resolve τ) :
    (system.moveTo who place).awaiting + (system.worker who).awaits =
      system.awaiting + place.awaits :=
  tally_update ..

/-- A thread stays in `pop` or out of it, or leaves it with a context. -/
theorem Remains.moveTo (remains : Remains first system)
    (poll : next.poll = system.poll) (stop : next.stop = system.stop)
    (worker : next.worker = Function.update system.worker who place)
    (balance : place.awaits + system.queue.length =
      (system.worker who).awaits + next.queue.length) : Remains first next := by
  have moved := system.awaiting_moveTo who place
  have same : next.awaiting = (system.moveTo who place).awaiting :=
    congrArg (tally Resolve.awaits) worker
  have fewer := remains.fewer
  refine ⟨poll.trans remains.poll, by omega, ?_⟩
  intro all
  obtain ⟨stopped, enough⟩ := remains.stopped all
  exact ⟨stop ▸ stopped, by omega⟩

/-- After the polling thread has finished, a thread leaves `pop` with a context of the
queue only. -/
theorem Remains.move (fronted : system.Fronted) (remains : Remains first system)
    (moved : Move program action system next) : Remains first next := by
  have ended := remains.poll
  cases moved with
  | exit => exact ⟨remains.poll, remains.fewer, remains.stopped⟩
  | stopPoll => exact ⟨remains.poll, remains.fewer, remains.stopped⟩
  | @stop _ who =>
      refine ⟨remains.poll, remains.fewer, ?_⟩
      intro all
      obtain ⟨stopped, same⟩ := remains.stopped all
      refine ⟨?_, same⟩
      intro other
      by_cases equal : other = who
      · subst equal
        exact Function.update_self ..
      · exact (Function.update_of_ne equal ..).trans (stopped other)
  | askPoll here => simp [ended] at here
  | records here batch => simp [ended] at here
  | handed here => simp [ended] at here
  | keep here kept => simp [ended] at here
  | skip here skipped => simp [ended] at here
  | lockPoll here free => simp [ended] at here
  | push here => simp [ended] at here
  | unlockPoll here => simp [ended] at here
  | notifyNone here awake => simp [ended] at here
  | notify here asleep => simp [ended] at here
  | @ask _ who here =>
      -- a thread enters `pop` unless it was told to stop
      have moved := system.awaiting_moveTo who (if system.stop who then .finished else .locking)
      have fewer := remains.fewer
      rw [here, show (Resolve.asking : Resolve τ).awaits = 0 from rfl] at moved
      refine ⟨ended, ?_, ?_⟩
      · change first.awaiting + system.queue.length ≤ _
        omega
      · intro all
        obtain ⟨stopped, same⟩ := remains.stopped all
        rw [if_pos (stopped who), show (Resolve.finished : Resolve τ).awaits = 0 from rfl] at moved
        refine ⟨stopped, ?_⟩
        rw [if_pos (stopped who)]
        change _ ≤ first.awaiting + system.queue.length
        omega
  | lock here free =>
      refine remains.moveTo rfl rfl rfl ?_
      obtain here | here := here
      · rw [here]
        rfl
      · rw [here]
        rfl
  | sleep here empty => exact remains.moveTo rfl rfl rfl (by rw [here]; rfl)
  | test here found => exact remains.moveTo rfl rfl rfl (by rw [here]; rfl)
  | take here front => exact remains.moveTo rfl rfl rfl (by rw [here]; rfl)
  | @drop _ who val here =>
      have front : (system.worker who).Fronts system.queue := fronted who
      rw [here] at front
      obtain ⟨rest, queued⟩ := List.head?_eq_some_iff.mp front
      refine remains.moveTo rfl rfl rfl ?_
      simp only [here, queued, Resolve.awaits, List.tail_cons, List.length_cons]
      omega
  | leave here => exact remains.moveTo rfl rfl rfl (by rw [here]; rfl)
  | resolve here result => exact remains.moveTo rfl rfl rfl (by rw [here]; rfl)
  | spurious asleep => exact remains.moveTo rfl rfl rfl (by rw [asleep]; rfl)

theorem Remains.follow {actions : List (Action ω τ)} (reached : program.Reaches first)
    (ended : first.poll = .finished)
    (followed : DwBpf.follow program.step actions first = some last) :
    Remains first last := by
  have both : program.Reaches last ∧ Remains first last := by
    refine follow_invariant (fun middle => program.Reaches middle ∧ Remains first middle) ?_
      ⟨reached, remains_refl ended⟩ followed
    intro action middle next before stepped
    exact ⟨before.1.step stepped, before.2.move before.1.fronted (move_of_step stepped).2⟩
  exact both.2

end Moves

variable {program : Program ω τ σ} {system last : System ω τ σ}

/-- After the polling thread has finished, the threads all get out of `pop` exactly when
there is a context on the queue for each of them. -/
theorem threads_join (reached : program.Reaches system) (ended : system.poll = .finished)
    {actions : List (Action ω τ)} (followed : follow program.step actions system = some last) :
    (system.queue.length < system.awaiting → ∃ who, 0 < (last.worker who).awaits) ∧
      (system.awaiting ≤ system.queue.length → (∀ who, system.stop who = true) →
        last.Quiet program → last.exited = true ∨ ∀ who, last.worker who = .finished) := by
  have remains := Remains.follow reached ended followed
  constructor
  · intro short
    have fewer := remains.fewer
    have stranded : 0 < last.awaiting := by omega
    exact exists_of_tally_pos stranded
  · intro enough all quiet
    by_cases running : last.exited = true
    · exact .inl running
    · right
      intro who
      have running : last.exited = false := Bool.eq_false_iff.mpr running
      have reached := reached.follow followed
      refine (quiet.worker_cases running reached.guarded reached.fronted who).resolve_left ?_
      intro asleep
      have empty : last.queue.length = 0 := by
        rw [quiet.queue_eq_nil running reached asleep]
        rfl
      have one : (last.worker who).awaits ≤ last.awaiting := weight_le_tally who
      rw [asleep, show (Resolve.sleeping : Resolve τ).awaits = 1 from rfl] at one
      obtain ⟨-, same⟩ := remains.stopped all
      omega

/-- A thread that waits when the polling thread finishes is told to stop, wakes up
without a cause, and waits again. -/
theorem threads_join_sums :
    ∃ system last actions, Program.sums.Reaches system ∧ system.poll = .finished ∧
      follow Program.sums.step actions system = some last ∧ last.stop 0 = true ∧
      (system.queue.length < system.awaiting ∧ ∃ who, 0 < (last.worker who).awaits) := by
  have run : ∃ system, follow Program.sums.step
        (.replicate 3 (.work 0) ++ [.stopPoll, .poll]) (.initial .sums) = some system ∧
      system.poll = .finished ∧ system.queue = [] ∧ system.worker 0 = .sleeping ∧
      ∃ last, follow Program.sums.step [.stop 0, .spurious 0, .work 0, .work 0] system =
        some last ∧ last.stop 0 = true := ⟨_, rfl, rfl, rfl, rfl, _, rfl, rfl⟩
  obtain ⟨system, started, ended, empty, asleep, last, followed, stopped⟩ := run
  have reached : Program.sums.Reaches system := ⟨_, started⟩
  have short : system.queue.length < system.awaiting := by
    have one : (system.worker 0).awaits ≤ system.awaiting := weight_le_tally 0
    rw [asleep] at one
    rw [empty]
    exact one
  exact ⟨system, last, _, reached, ended, followed, stopped, short,
    (threads_join reached ended followed).1 short⟩

end DwBpf.Task
