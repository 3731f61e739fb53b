import DwBpf.Task.Queue

/-! # What the threads do to the queue

`DwBpf.Task.Move` lists what one action can do, with what it found before. A thread is
between the lock and the unlock of the mutex exactly when it owns the mutex
(`DwBpf.Task.System.Guarded`), so the front that `pop` has read is still there when it
takes it off (`DwBpf.Task.System.Fronted`).
-/

namespace DwBpf.Task

variable {ω τ σ : Type*} [DecidableEq ω]

/-- What one action can do. -/
inductive Move (program : Program ω τ σ) :
    Action ω τ → System ω τ σ → System ω τ σ → Prop
  | exit (action) (system) : Move program action system { system with exited := true }
  | stopPoll (system) : Move program .stopPoll system { system with stopPoll := true }
  | stop (system) (who : ω) :
      Move program (.stop who) system { system with stop := Function.update system.stop who true }
  | askPoll {system} (here : system.poll = .asking) :
      Move program .poll system
        { system with poll := if system.stopPoll then .finished else .polling }
  | records {system} (here : system.poll = .polling) (batch : List τ) :
      Move program (.records batch) system { system with poll := .handing batch }
  | handed {system} (here : system.poll = .handing []) :
      Move program .poll system { system with poll := .asking }
  | keep {system} {item : τ} {batch : List τ} (here : system.poll = .handing (item :: batch))
      (kept : program.keep item = true) :
      Move program .poll system
        { system with poll := .locking item batch, handed := system.handed ++ [item] }
  | skip {system} {item : τ} {batch : List τ} (here : system.poll = .handing (item :: batch))
      (skipped : program.keep item = false) :
      Move program .poll system
        { system with poll := .handing batch, handed := system.handed ++ [item] }
  | lockPoll {system} {item : τ} {batch : List τ} (here : system.poll = .locking item batch)
      (free : system.owner = none) :
      Move program .poll system { system with poll := .pushing item batch, owner := some none }
  | push {system} {item : τ} {batch : List τ} (here : system.poll = .pushing item batch) :
      Move program .poll system
        { system with poll := .unlocking batch, queue := system.queue ++ [item] }
  | unlockPoll {system} {batch : List τ} (here : system.poll = .unlocking batch) :
      Move program .poll system { system with poll := .notifying batch, owner := none }
  | notifyNone {system} {batch : List τ} (here : system.poll = .notifying batch)
      (awake : ∀ who, (system.worker who).isSleeping = false) :
      Move program (.notify none) system { system with poll := .handing batch }
  | notify {system} {batch : List τ} {who : ω} (here : system.poll = .notifying batch)
      (asleep : system.worker who = .sleeping) :
      Move program (.notify (some who)) system
        { system.moveTo who .waking with poll := .handing batch }
  | ask {system} {who : ω} (here : system.worker who = .asking) :
      Move program (.work who) system
        (system.moveTo who (if system.stop who then .finished else .locking))
  | lock {system} {who : ω}
      (here : system.worker who = .locking ∨ system.worker who = .waking)
      (free : system.owner = none) :
      Move program (.work who) system { system.moveTo who .testing with owner := some (some who) }
  | sleep {system} {who : ω} (here : system.worker who = .testing) (empty : system.queue = []) :
      Move program (.work who) system { system.moveTo who .sleeping with owner := none }
  | test {system} {who : ω} (here : system.worker who = .testing) (found : system.queue ≠ []) :
      Move program (.work who) system (system.moveTo who .taking)
  | take {system} {who : ω} {val : τ} (here : system.worker who = .taking)
      (front : system.queue.head? = some val) :
      Move program (.work who) system (system.moveTo who (.dropping val))
  | drop {system} {who : ω} {val : τ} (here : system.worker who = .dropping val) :
      Move program (.work who) system { system.moveTo who (.leaving val) with
        queue := system.queue.tail
        received := system.received ++ [(who, val)] }
  | leave {system} {who : ω} {val : τ} (here : system.worker who = .leaving val) :
      Move program (.work who) system { system.moveTo who (.resolving val) with owner := none }
  | resolve {system} {who : ω} {val : τ} {next : σ} (here : system.worker who = .resolving val)
      (result : program.resolve (system.machine who) val = some next) :
      Move program (.work who) system { system.moveTo who .asking with
        machine := Function.update system.machine who next
        resolved := Function.update system.resolved who (system.resolved who ++ [val]) }
  | spurious {system} {who : ω} (asleep : system.worker who = .sleeping) :
      Move program (.spurious who) system (system.moveTo who .waking)

theorem Resolve.isSleeping_iff {place : Resolve τ} :
    place.isSleeping = true ↔ place = .sleeping := by
  cases place <;> simp [isSleeping]

section Inversion

variable {program : Program ω τ σ} {system next : System ω τ σ} {who : ω}

/-- The steps of the polling thread, as moves. -/
theorem move_of_pollStep (stepped : system.pollStep program.keep = some next) :
    Move program .poll system next := by
  unfold System.pollStep at stepped
  split at stepped
  case h_1 here =>
    cases stepped
    exact .askPoll here
  case h_2 => cases stepped
  case h_3 => cases stepped
  case h_4 => cases stepped
  case h_5 here =>
    cases stepped
    exact .handed here
  case h_6 item batch here =>
    cases stepped
    split
    case isTrue kept => exact .keep here kept
    case isFalse skipped => exact .skip here (Bool.not_eq_true _ ▸ skipped)
  case h_7 item batch here =>
    split at stepped
    case isTrue free =>
      cases stepped
      exact .lockPoll here (Option.isNone_iff_eq_none.mp free)
    case isFalse => cases stepped
  case h_8 item batch here =>
    cases stepped
    exact .push here
  case h_9 batch here =>
    cases stepped
    exact .unlockPoll here

theorem move_of_workStep (stepped : system.workStep program.resolve who = some next) :
    Move program (.work who) system next := by
  unfold System.workStep at stepped
  split at stepped
  case h_1 here =>
    cases stepped
    exact .ask here
  case h_2 here =>
    split at stepped
    case isTrue free =>
      cases stepped
      exact .lock (.inl here) (Option.isNone_iff_eq_none.mp free)
    case isFalse => cases stepped
  case h_3 here =>
    split at stepped
    case isTrue free =>
      cases stepped
      exact .lock (.inr here) (Option.isNone_iff_eq_none.mp free)
    case isFalse => cases stepped
  case h_4 here =>
    split at stepped
    case isTrue empty =>
      cases stepped
      exact .sleep here (List.isEmpty_iff.mp empty)
    case isFalse found =>
      cases stepped
      exact .test here fun empty => found (List.isEmpty_iff.mpr empty)
  case h_5 => cases stepped
  case h_6 => cases stepped
  case h_7 here =>
    obtain ⟨val, front, rfl⟩ := Option.map_eq_some_iff.mp stepped
    exact .take here front
  case h_8 val here =>
    cases stepped
    exact .drop here
  case h_9 val here =>
    cases stepped
    exact .leave here
  case h_10 val here =>
    split at stepped
    case h_1 =>
      cases stepped
      exact .exit _ system
    case h_2 machine result =>
      cases stepped
      exact .resolve here result

theorem wake_eq_some {woken : System ω τ σ} (stepped : system.wake who = some woken) :
    system.worker who = .sleeping ∧ woken = system.moveTo who .waking := by
  unfold System.wake at stepped
  split at stepped
  case isTrue asleep =>
    cases stepped
    exact ⟨Resolve.isSleeping_iff.mp asleep, rfl⟩
  case isFalse => cases stepped

variable [Fintype ω]

/-- A notification wakes one that waits, or nobody. -/
theorem move_of_notifyOne {woken : Option ω} (stepped : system.notifyOne woken = some next) :
    Move program (.notify woken) system next := by
  unfold System.notifyOne at stepped
  split at stepped
  case h_1 _ batch here =>
    split at stepped
    case isTrue => cases stepped
    case isFalse awake =>
      cases stepped
      exact .notifyNone here fun who => Bool.not_eq_true _ ▸ fun asleep => awake ⟨who, asleep⟩
  case h_2 _ batch who here =>
    obtain ⟨asleep, rfl⟩ := wake_eq_some stepped
    exact .notify here asleep
  case h_3 => cases stepped

/-- An action does one of the moves, in a process that has not ended. -/
theorem move_of_step {action : Action ω τ} (stepped : program.step action system = some next) :
    system.exited = false ∧ Move program action system next := by
  unfold Program.step at stepped
  split at stepped
  case isTrue => cases stepped
  case isFalse running =>
    refine ⟨Bool.not_eq_true _ ▸ running, ?_⟩
    cases action with
    | stopPoll =>
        dsimp only at stepped
        split at stepped
        · cases stepped
          exact .exit _ system
        · cases stepped
          exact .stopPoll system
    | stop who =>
        dsimp only at stepped
        split at stepped
        · cases stepped
          exact .exit _ system
        · cases stepped
          exact .stop system who
    | records batch =>
        dsimp only at stepped
        split at stepped
        case h_1 here =>
          cases stepped
          exact .records here batch
        case h_2 => cases stepped
    | poll => exact move_of_pollStep stepped
    | notify woken => exact move_of_notifyOne stepped
    | work who => exact move_of_workStep stepped
    | spurious who =>
        obtain ⟨asleep, rfl⟩ := wake_eq_some stepped
        exact .spurious asleep

theorem Program.Reaches.follow {actions : List (Action ω τ)} (reached : program.Reaches system)
    (followed : DwBpf.follow program.step actions system = some next) : program.Reaches next := by
  obtain ⟨earlier, start⟩ := reached
  refine ⟨earlier ++ actions, ?_⟩
  rw [follow_append, start]
  exact followed

theorem Program.Reaches.step {action : Action ω τ} (reached : program.Reaches system)
    (stepped : program.step action system = some next) : program.Reaches next := by
  have followed : DwBpf.follow program.step [action] system = some next :=
    follow_cons_eq_some.mpr ⟨next, stepped, rfl⟩
  exact reached.follow followed

/-- What the first state has and every move keeps, all states have. -/
theorem Program.Reaches.invariant {property : System ω τ σ → Prop}
    (start : property (.initial program))
    (kept : ∀ action system next, program.Reaches system → property system →
      Move program action system next → property next)
    (reached : program.Reaches system) : property system := by
  obtain ⟨actions, followed⟩ := reached
  have both : program.Reaches system ∧ property system := by
    refine follow_invariant (fun middle => program.Reaches middle ∧ property middle) ?_
      ⟨⟨[], rfl⟩, start⟩ followed
    intro action middle next before stepped
    exact ⟨before.1.step stepped,
      kept action middle next before.1 before.2 (move_of_step stepped).2⟩
  exact both.2

end Inversion

/-- Between the lock and the unlock of the mutex. -/
def Poll.holds : Poll τ → Bool
  | .pushing _ _ | .unlocking _ => true
  | _ => false

/-- Between the lock and the unlock of the mutex. -/
def Resolve.holds : Resolve τ → Bool
  | .testing | .taking | .dropping _ | .leaving _ => true
  | _ => false

/-- The thread between the lock and the unlock is the owner of the mutex. -/
structure Guarded (poll : Poll τ) (worker : ω → Resolve τ) (owner : Option (Option ω)) : Prop where
  poll : poll.holds = true ↔ owner = some none
  worker : ∀ who, (worker who).holds = true ↔ owner = some (some who)

namespace Guarded

variable {poll poll' : Poll τ} {worker : ω → Resolve τ} {owner : Option (Option ω)} {who : ω}
  {place : Resolve τ}

/-- A thread moves, and the owner stays. -/
theorem moveTo (guarded : Guarded poll worker owner) (same : place.holds = (worker who).holds) :
    Guarded poll (Function.update worker who place) owner where
  poll := guarded.poll
  worker other := by
    by_cases equal : other = who
    · subst equal
      rw [Function.update_self, same]
      exact guarded.worker other
    · rw [Function.update_of_ne equal]
      exact guarded.worker other

omit [DecidableEq ω] in
/-- The polling thread moves, and the owner stays. -/
theorem pollTo (guarded : Guarded poll worker owner) (same : poll'.holds = poll.holds) :
    Guarded poll' worker owner where
  poll := same ▸ guarded.poll
  worker := guarded.worker

omit [DecidableEq ω] in
theorem not_holds_of_ne (guarded : Guarded poll worker owner) (apart : owner ≠ some (some who)) :
    (worker who).holds = false :=
  Bool.eq_false_iff.mpr fun holds => apart ((guarded.worker who).mp holds)

omit [DecidableEq ω] in
theorem not_holds_poll (guarded : Guarded poll worker owner) (apart : owner ≠ some none) :
    poll.holds = false :=
  Bool.eq_false_iff.mpr fun holds => apart (guarded.poll.mp holds)

theorem acquire (guarded : Guarded poll worker owner) (free : owner = none)
    (holds : place.holds = true) :
    Guarded poll (Function.update worker who place) (some (some who)) where
  poll := by
    rw [guarded.not_holds_poll (by simp [free])]
    simp
  worker other := by
    by_cases equal : other = who
    · subst equal
      simpa using holds
    · rw [Function.update_of_ne equal, guarded.not_holds_of_ne (by simp [free])]
      simpa using Ne.symm equal

theorem release (guarded : Guarded poll worker owner) (held : (worker who).holds = true)
    (holds : place.holds = false) : Guarded poll (Function.update worker who place) none where
  poll := by
    rw [(guarded.worker who).mp held] at guarded
    rw [guarded.not_holds_poll (by simp)]
    simp
  worker other := by
    rw [(guarded.worker who).mp held] at guarded
    by_cases equal : other = who
    · subst equal
      simpa using holds
    · rw [Function.update_of_ne equal, guarded.not_holds_of_ne (by simpa using Ne.symm equal)]
      simp

omit [DecidableEq ω] in
theorem acquirePoll (guarded : Guarded poll worker owner) (free : owner = none)
    (holds : poll'.holds = true) : Guarded poll' worker (some none) where
  poll := by simpa using holds
  worker who := by
    rw [guarded.not_holds_of_ne (by simp [free])]
    simp

omit [DecidableEq ω] in
theorem releasePoll (guarded : Guarded poll worker owner) (held : poll.holds = true)
    (holds : poll'.holds = false) : Guarded poll' worker none where
  poll := by simpa using holds
  worker who := by
    rw [guarded.poll.mp held] at guarded
    rw [guarded.not_holds_of_ne (by simp)]
    simp

end Guarded

def System.Guarded (system : System ω τ σ) : Prop :=
  Task.Guarded system.poll system.worker system.owner

/-- The queue has what `pop` is about to read, or has read. -/
def Resolve.Fronts (queue : List τ) : Resolve τ → Prop
  | .taking => queue ≠ []
  | .dropping val => queue.head? = some val
  | _ => True

def System.Fronted (system : System ω τ σ) : Prop :=
  ∀ who, (system.worker who).Fronts system.queue

section Moves

variable {program : Program ω τ σ} {system next : System ω τ σ} {action : Action ω τ}

/-- The mutex has one owner at most, over every step. -/
theorem System.Guarded.move (guarded : system.Guarded) (moved : Move program action system next) :
    next.Guarded := by
  cases moved with
  | exit => exact guarded
  | stopPoll => exact guarded
  | stop => exact guarded
  | askPoll here =>
      apply Guarded.pollTo guarded
      rw [here]
      split
      · rfl
      · rfl
  | records here batch => exact Guarded.pollTo guarded (by rw [here]; rfl)
  | handed here => exact Guarded.pollTo guarded (by rw [here]; rfl)
  | keep here kept => exact Guarded.pollTo guarded (by rw [here]; rfl)
  | skip here skipped => exact Guarded.pollTo guarded (by rw [here]; rfl)
  | lockPoll here free => exact Guarded.acquirePoll guarded free rfl
  | push here => exact Guarded.pollTo guarded (by rw [here]; rfl)
  | unlockPoll here => exact Guarded.releasePoll guarded (by rw [here]; rfl) rfl
  | notifyNone here awake => exact Guarded.pollTo guarded (by rw [here]; rfl)
  | notify here asleep =>
      exact Guarded.pollTo (Guarded.moveTo guarded (by rw [asleep]; rfl)) (by rw [here]; rfl)
  | ask here =>
      apply Guarded.moveTo guarded
      rw [here]
      split
      · rfl
      · rfl
  | lock here free => exact Guarded.acquire guarded free rfl
  | sleep here empty => exact Guarded.release guarded (by rw [here]; rfl) rfl
  | test here found => exact Guarded.moveTo guarded (by rw [here]; rfl)
  | take here front => exact Guarded.moveTo guarded (by rw [here]; rfl)
  | drop here => exact Guarded.moveTo guarded (by rw [here]; rfl)
  | leave here => exact Guarded.release guarded (by rw [here]; rfl) rfl
  | resolve here result => exact Guarded.moveTo guarded (by rw [here]; rfl)
  | spurious asleep => exact Guarded.moveTo guarded (by rw [asleep]; rfl)

/-- A move that leaves the front of the queue, and the threads but one. -/
theorem System.Fronted.moveTo {who : ω} {place : Resolve τ} (fronted : system.Fronted)
    (front : place.Fronts system.queue) : (system.moveTo who place).Fronted := by
  intro other
  by_cases equal : other = who
  · subst equal
    simpa [System.moveTo] using front
  · simpa [System.moveTo, equal] using fronted other

/-- An item at the end of the queue leaves the one at its front. -/
theorem Resolve.Fronts.push {place : Resolve τ} {queue : List τ} (front : place.Fronts queue)
    (item : τ) : place.Fronts (queue ++ [item]) := by
  cases place with
  | taking =>
      intro empty
      exact front (List.append_eq_nil_iff.mp empty).1
  | dropping val =>
      have front : queue.head? = some val := front
      change (queue ++ [item]).head? = some val
      rw [List.head?_append, front]
      rfl
  | asking | locking | testing | sleeping | waking | leaving | resolving | finished => trivial

omit [DecidableEq ω] in
theorem Resolve.fronts_of_not_holds {place : Resolve τ} {queue : List τ}
    (outside : place.holds = false) : place.Fronts queue := by
  cases place with
  | taking => cases outside
  | dropping val => cases outside
  | asking | locking | testing | sleeping | waking | leaving | resolving | finished => trivial

/-- What a thread has seen at the front stays there until it takes it. -/
theorem System.Fronted.move (guarded : system.Guarded) (fronted : system.Fronted)
    (moved : Move program action system next) : next.Fronted := by
  cases moved with
  | exit => exact fronted
  | stopPoll => exact fronted
  | stop => exact fronted
  | askPoll here => exact fronted
  | records here batch => exact fronted
  | handed here => exact fronted
  | keep here kept => exact fronted
  | skip here skipped => exact fronted
  | lockPoll here free => exact fronted
  | push here => exact fun who => (fronted who).push _
  | unlockPoll here => exact fronted
  | notifyNone here awake => exact fronted
  | notify here asleep => exact fronted.moveTo trivial
  | ask here =>
      apply fronted.moveTo
      split
      · trivial
      · trivial
  | lock here free => exact fronted.moveTo trivial
  | sleep here empty => exact fronted.moveTo trivial
  | test here found => exact fronted.moveTo found
  | take here front => exact fronted.moveTo front
  | @drop _ who val here =>
      -- no other thread is between its lock and its unlock
      have owned : system.owner = some (some who) := (guarded.worker who).mp (by rw [here]; rfl)
      intro other
      by_cases equal : other = who
      · subst equal
        simp only [System.moveTo, Function.update_self]
        trivial
      · simp only [System.moveTo, Function.update_of_ne equal]
        apply Resolve.fronts_of_not_holds
        exact guarded.not_holds_of_ne (by simpa [owned] using Ne.symm equal)
  | leave here => exact fronted.moveTo trivial
  | resolve here result => exact fronted.moveTo trivial
  | spurious asleep => exact fronted.moveTo trivial

variable [Fintype ω]

theorem Program.Reaches.guarded (reached : program.Reaches system) : system.Guarded := by
  apply reached.invariant
  · exact ⟨by simp [System.initial, Poll.holds], by simp [System.initial, Resolve.holds]⟩
  · intro _ system next _ before moved
    exact before.move moved

theorem Program.Reaches.fronted (reached : program.Reaches system) : system.Fronted := by
  apply reached.invariant
  · exact fun _ => trivial
  · intro _ system next reached before moved
    exact before.move reached.guarded moved

end Moves

end DwBpf.Task
