import DwBpf.Task.Moves

/-! # Every context is resolved once, in its turn

In whatever order the threads take their steps, the contexts that the handler accepted
are those that were popped so far, in the order of their pops, then those on the queue,
then the one that is being pushed. None is lost and none is popped twice. What a thread
has resolved are the contexts it popped, in that order, and its machine is the one that
resolving them one after the other leaves, as if there were no other thread
(`DwBpf.Task.contexts_delivered`).
-/

namespace DwBpf.Task

variable {ω τ σ : Type*} [DecidableEq ω]

/-- The context that `push` was called with and has not put on the queue yet. -/
def Poll.inHand : Poll τ → List τ
  | .locking item _ | .pushing item _ => [item]
  | _ => []

/-- The context that `pop` has taken off the queue and that is not resolved yet. -/
def Resolve.inHand : Resolve τ → List τ
  | .leaving val | .resolving val => [val]
  | _ => []

/-- The contexts that were popped for a thread. -/
def System.receivedBy (system : System ω τ σ) (who : ω) : List τ :=
  (system.received.filter fun entry => entry.1 = who).map Prod.snd

/-- Where the contexts are that the handler has accepted. -/
def System.Delivered (program : Program ω τ σ) (system : System ω τ σ) : Prop :=
  system.handed.filter program.keep =
    system.received.map Prod.snd ++ system.queue ++ system.poll.inHand

/-- What a thread has made of the contexts that were popped for it: all but the one in
its hand are resolved, and that has left the machine. -/
structure Serves (program : Program ω τ σ) (who : ω) (popped : List τ) (place : Resolve τ)
    (resolved : List τ) (machine : σ) : Prop where
  popped : popped = resolved ++ place.inHand
  machine : resolved.foldlM program.resolve (program.start who) = some machine

def System.Serves (program : Program ω τ σ) (system : System ω τ σ) (who : ω) : Prop :=
  Task.Serves program who (system.receivedBy who) (system.worker who) (system.resolved who)
    (system.machine who)

section Moves

variable {program : Program ω τ σ} {system next : System ω τ σ} {action : Action ω τ} {who : ω}

/-- A step takes a context from one place to the next, or leaves all where they are. -/
theorem System.Delivered.move (fronted : system.Fronted) (delivered : system.Delivered program)
    (moved : Move program action system next) : next.Delivered program := by
  have before : system.handed.filter program.keep =
    system.received.map Prod.snd ++ system.queue ++ system.poll.inHand := delivered
  cases moved with
  | exit => exact delivered
  | stopPoll => exact delivered
  | stop => exact delivered
  | askPoll here =>
      rw [here] at before
      rw [Delivered, before]
      dsimp only
      split
      · rfl
      · rfl
  | records here batch =>
      rw [here] at before
      exact before
  | handed here =>
      rw [here] at before
      exact before
  | keep here kept =>
      rw [here] at before
      simp [Delivered, before, kept, Poll.inHand]
  | skip here skipped =>
      rw [here] at before
      simp [Delivered, before, skipped, Poll.inHand]
  | lockPoll here free =>
      rw [here] at before
      exact before
  | push here =>
      rw [here] at before
      simp [Delivered, before, Poll.inHand]
  | unlockPoll here =>
      rw [here] at before
      exact before
  | notifyNone here awake =>
      rw [here] at before
      exact before
  | notify here asleep =>
      rw [here] at before
      exact before
  | @drop _ who val here =>
      -- what `pop` has read is still the front
      have front : (system.worker who).Fronts system.queue := fronted who
      rw [here] at front
      obtain ⟨rest, queued⟩ := List.head?_eq_some_iff.mp front
      rw [queued] at before
      simp [Delivered, before, queued, moveTo]
  | ask here => exact delivered
  | lock here free => exact delivered
  | sleep here empty => exact delivered
  | test here found => exact delivered
  | take here front => exact delivered
  | leave here => exact delivered
  | resolve here result => exact delivered
  | spurious asleep => exact delivered

/-- Some thread moves on, with the same context in hand if it has one. -/
theorem Serves.moveTo {popped resolved : List τ} {machine : σ} {worker : ω → Resolve τ}
    {other : ω} {place : Resolve τ}
    (serves : Serves program who popped (worker who) resolved machine)
    (same : place.inHand = (worker other).inHand) :
    Serves program who popped (Function.update worker other place who) resolved machine where
  popped := by
    by_cases equal : who = other
    · subst equal
      rw [Function.update_self, same]
      exact serves.popped
    · rw [Function.update_of_ne equal]
      exact serves.popped
  machine := serves.machine

/-- A thread resolves the context that was popped for it, and no other. -/
theorem System.Serves.move (serves : system.Serves program who)
    (moved : Move program action system next) : next.Serves program who := by
  cases moved with
  | exit => exact serves
  | stopPoll => exact serves
  | stop => exact serves
  | askPoll here => exact serves
  | records here batch => exact serves
  | handed here => exact serves
  | keep here kept => exact serves
  | skip here skipped => exact serves
  | lockPoll here free => exact serves
  | push here => exact serves
  | unlockPoll here => exact serves
  | notifyNone here awake => exact serves
  | notify here asleep => exact Task.Serves.moveTo serves (by rw [asleep]; rfl)
  | ask here =>
      apply Task.Serves.moveTo serves
      rw [here]
      split
      · rfl
      · rfl
  | lock here free =>
      apply Task.Serves.moveTo serves
      obtain here | here := here
      · rw [here]
        rfl
      · rw [here]
        rfl
  | sleep here empty => exact Task.Serves.moveTo serves (by rw [here]; rfl)
  | test here found => exact Task.Serves.moveTo serves (by rw [here]; rfl)
  | take here front => exact Task.Serves.moveTo serves (by rw [here]; rfl)
  | @drop _ other val here =>
      refine ⟨?_, serves.machine⟩
      have before : system.receivedBy who = system.resolved who ++ (system.worker who).inHand :=
        serves.popped
      by_cases equal : who = other
      · subst equal
        rw [here] at before
        simpa [receivedBy, moveTo, Resolve.inHand] using before
      · simpa [receivedBy, moveTo, equal, Ne.symm equal] using before
  | leave here => exact Task.Serves.moveTo serves (by rw [here]; rfl)
  | @resolve _ other val machine here result =>
      have before : system.receivedBy who = system.resolved who ++ (system.worker who).inHand :=
        serves.popped
      have folded : (system.resolved who).foldlM program.resolve (program.start who) =
        some (system.machine who) := serves.machine
      by_cases equal : who = other
      · subst equal
        rw [here] at before
        constructor
        · simpa [receivedBy, moveTo, Resolve.inHand] using before
        · simpa [moveTo, folded] using result
      · constructor
        · simpa [receivedBy, moveTo, equal] using before
        · simpa [moveTo, equal] using folded
  | spurious asleep => exact Task.Serves.moveTo serves (by rw [asleep]; rfl)

end Moves

variable [Fintype ω] {program : Program ω τ σ} {system : System ω τ σ}

theorem Program.Reaches.delivered (reached : program.Reaches system) :
    system.Delivered program := by
  apply reached.invariant
  · rfl
  · intro _ system next reached before moved
    exact before.move reached.fronted moved

theorem Program.Reaches.serves (reached : program.Reaches system) (who : ω) :
    system.Serves program who := by
  apply reached.invariant
  · exact ⟨rfl, rfl⟩
  · intro _ system next _ before moved
    exact before.move moved

/-- The queue loses no context and hands out none twice, and every thread works on its
share as it would alone. -/
theorem contexts_delivered (reached : program.Reaches system) :
    system.handed.filter program.keep =
        system.received.map Prod.snd ++ system.queue ++ system.poll.inHand ∧
      ∀ who, system.receivedBy who = system.resolved who ++ (system.worker who).inHand ∧
        (system.resolved who).foldlM program.resolve (program.start who) =
          some (system.machine who) :=
  ⟨reached.delivered, fun who => ⟨(reached.serves who).popped, (reached.serves who).machine⟩⟩

theorem contexts_delivered_sums :
    ∃ system, Program.sums.Reaches system ∧ system.handed = [2, 3] ∧
      (system.handed.filter Program.sums.keep =
          system.received.map Prod.snd ++ system.queue ++ system.poll.inHand ∧
        ∀ who, system.receivedBy who = system.resolved who ++ (system.worker who).inHand ∧
          (system.resolved who).foldlM Program.sums.resolve (Program.sums.start who) =
            some (system.machine who)) := by
  have run : ∃ system,
    follow Program.sums.step (pushOne ++ popOne 1) (.initial .sums) = some system ∧
      system.handed = [2, 3] := ⟨_, rfl, rfl⟩
  obtain ⟨system, followed, handed⟩ := run
  have reached : Program.sums.Reaches system := ⟨_, followed⟩
  exact ⟨system, reached, handed, contexts_delivered reached⟩

end DwBpf.Task
