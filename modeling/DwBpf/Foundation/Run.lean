import Mathlib.Logic.Basic

/-! # Runs of fallible steps

A step takes a command and a state and either fails, which ends the run, or
returns an output and the next state. `DwBpf.runAll` runs a list of commands,
and the rules below lift what one step does to what every run does: an
invariant kept by the steps that meet a condition holds wherever a run of such
steps arrives (`DwBpf.runAll_invariant`), and two systems whose steps agree
have runs that agree (`DwBpf.runAll_agree`).
-/

namespace DwBpf

universe u

variable {ε ι ο σ α β : Type u}

instance instDecidableEqExcept [DecidableEq ε] [DecidableEq α] : DecidableEq (Except ε α)
  | .error first, .error second =>
      decidable_of_iff (first = second) ⟨congrArg Except.error, Except.error.inj⟩
  | .error _, .ok _ => isFalse nofun
  | .ok _, .error _ => isFalse nofun
  | .ok first, .ok second => decidable_of_iff (first = second) ⟨congrArg Except.ok, Except.ok.inj⟩

@[simp] theorem ok_bind (value : α) (next : α → Except ε β) :
    (Except.ok value >>= next) = next value := rfl

@[simp] theorem error_bind (failure : ε) (next : α → Except ε β) :
    (Except.error failure >>= next) = .error failure := rfl

/-- A computation whose result passes a test returns. -/
theorem exists_of_any {outcome : Except ε α} {test : α → Bool}
    (passes : outcome.toOption.any test = true) :
    ∃ value, outcome = .ok value ∧ test value = true := by
  cases outcome with
  | error failure => cases passes
  | ok value => exact ⟨value, rfl, passes⟩

@[simp] theorem pure_eq_ok (value : α) : (pure value : Except ε α) = .ok value := rfl

/-- A sequence succeeds when both of its parts do. -/
theorem bind_eq_ok_iff {first : Except ε α} {next : α → Except ε β} {result : β} :
    (first >>= next) = .ok result ↔ ∃ value, first = .ok value ∧ next value = .ok result := by
  cases first with
  | error failure => simp
  | ok value => simp

/-- The computation does not fail in one of the ways `bad`. -/
def Avoids (bad : ε → Prop) (outcome : Except ε α) : Prop :=
  ∀ failure, outcome = .error failure → ¬ bad failure

section Avoids

variable {bad : ε → Prop}

theorem avoids_ok (value : α) : Avoids bad (.ok value) := nofun

theorem avoids_error {failure : ε} (good : ¬ bad failure) :
    Avoids bad (.error failure : Except ε α) := by
  intro failure' same
  cases same
  exact good

theorem Avoids.bind {first : Except ε α} {next : α → Except ε β} (start : Avoids bad first)
    (later : ∀ value, Avoids bad (next value)) : Avoids bad (first >>= next) := by
  cases first with
  | error failure =>
      intro failure' same
      cases same
      exact start failure rfl
  | ok value => exact later value

theorem avoids_ite {condition : Prop} [Decidable condition] {first second : Except ε α}
    (yes : Avoids bad first) (no : Avoids bad second) :
    Avoids bad (if condition then first else second) := by
  split
  · exact yes
  · exact no

end Avoids

/-- Run the commands one after another and collect their outputs. -/
def runAll (step : ι → σ → Except ε (ο × σ)) : List ι → σ → Except ε (List ο × σ)
  | [], state => .ok ([], state)
  | command :: commands, state => do
      let (output, next) ← step command state
      let (outputs, last) ← runAll step commands next
      return (output :: outputs, last)

variable {step : ι → σ → Except ε (ο × σ)}

theorem runAll_cons_eq_ok {command : ι} {commands : List ι} {state last : σ} {outputs : List ο} :
    runAll step (command :: commands) state = .ok (outputs, last) ↔
      ∃ output next rest, step command state = .ok (output, next) ∧
        runAll step commands next = .ok (rest, last) ∧ outputs = output :: rest := by
  simp only [runAll, bind_eq_ok_iff, Prod.exists, pure_eq_ok, Except.ok.injEq, Prod.mk.injEq]
  constructor
  · rintro ⟨output, next, first, rest, last', later, rfl, rfl⟩
    exact ⟨output, next, rest, first, later, rfl⟩
  · rintro ⟨output, next, rest, first, later, rfl⟩
    exact ⟨output, next, first, rest, last, later, rfl, rfl⟩

theorem runAll_map {κ : Type u} (command : κ → ι) (keys : List κ) (state : σ) :
    runAll step (keys.map command) state = runAll (fun key => step (command key)) keys state := by
  induction keys generalizing state with
  | nil => rfl
  | cons key keys ih => simp only [List.map_cons, runAll, ih]

/-- Every step the run takes meets the condition in the state it starts from. -/
def EachStep (step : ι → σ → Except ε (ο × σ)) (condition : σ → ι → Prop) : List ι → σ → Prop
  | [], _ => True
  | command :: commands, state => condition state command ∧
      ∀ output next, step command state = .ok (output, next) →
        EachStep step condition commands next

theorem eachStep_cons_of_ok {condition : σ → ι → Prop} {command : ι} {commands : List ι}
    {state next : σ} {output : ο} (stepped : step command state = .ok (output, next)) :
    EachStep step condition (command :: commands) state ↔
      condition state command ∧ EachStep step condition commands next := by
  refine and_congr Iff.rfl ⟨fun each => each output next stepped, ?_⟩
  intro each output' next' stepped'
  cases stepped.symm.trans stepped'
  exact each

theorem eachStep_of_forall {condition : σ → ι → Prop} {commands : List ι}
    (all : ∀ command ∈ commands, ∀ state, condition state command) (state : σ) :
    EachStep step condition commands state := by
  induction commands generalizing state with
  | nil => trivial
  | cons command commands ih =>
      refine ⟨all command (List.mem_cons_self ..) state, fun _ next _ => ih ?_ next⟩
      intro later member
      exact all later (List.mem_cons_of_mem _ member)

/-- What holds of every command of the run may be added to the condition. -/
theorem EachStep.and_mem {condition : σ → ι → Prop} {property : ι → Prop} {commands : List ι}
    {state : σ} (each : EachStep step condition commands state)
    (all : ∀ command ∈ commands, property command) :
    EachStep step (fun state command => condition state command ∧ property command) commands
      state := by
  induction commands generalizing state with
  | nil => trivial
  | cons command commands ih =>
      refine ⟨⟨each.1, all command (by simp)⟩, ?_⟩
      intro output next stepped
      exact ih (each.2 output next stepped) fun later member => all later (by simp [member])

/-- Steps that meet the condition and keep the invariant keep it along runs. -/
theorem runAll_invariant {condition : σ → ι → Prop} {invariant : σ → Prop}
    (kept : ∀ command state output next, invariant state → condition state command →
      step command state = .ok (output, next) → invariant next)
    {commands : List ι} {state last : σ} {outputs : List ο} (start : invariant state)
    (each : EachStep step condition commands state)
    (ran : runAll step commands state = .ok (outputs, last)) : invariant last := by
  induction commands generalizing state outputs with
  | nil => cases ran; exact start
  | cons command commands ih =>
      obtain ⟨output, next, rest, first, later, -⟩ := runAll_cons_eq_ok.mp ran
      exact ih (kept command state output next start each.1 first) (each.2 output next first) later

/-- Conditions that agree where an invariant holds are met by the same runs. -/
theorem eachStep_congr {condition condition' : σ → ι → Prop} {invariant : σ → Prop}
    {property : ι → Prop}
    (kept : ∀ command state output next, invariant state → property command →
      step command state = .ok (output, next) → invariant next)
    (agree : ∀ command state, invariant state → property command →
      (condition state command ↔ condition' state command))
    {commands : List ι} (all : ∀ command ∈ commands, property command) {state : σ}
    (start : invariant state) :
    EachStep step condition commands state ↔ EachStep step condition' commands state := by
  induction commands generalizing state with
  | nil => exact Iff.rfl
  | cons command commands ih =>
      have here := all command (by simp)
      have later : ∀ output next, step command state = .ok (output, next) →
          (EachStep step condition commands next ↔ EachStep step condition' commands next) := by
        intro output next stepped
        exact ih (fun later member => all later (by simp [member]))
          (kept command state output next start here stepped)
      refine and_congr (agree command state start here) ?_
      exact forall_congr' fun output => forall_congr' fun next => forall_congr' fun stepped =>
        later output next stepped

/-- In a run that returns it is enough that a step which meets them keeps the invariant, and
that they agree where the step returns. -/
theorem eachStep_congr_of_ran {condition condition' : σ → ι → Prop} {invariant : σ → Prop}
    {property : ι → Prop}
    (kept : ∀ command state output next, invariant state → property command →
      condition' state command → step command state = .ok (output, next) → invariant next)
    (agree : ∀ command state output next, invariant state → property command →
      step command state = .ok (output, next) →
      (condition state command ↔ condition' state command))
    {commands : List ι} (all : ∀ command ∈ commands, property command) {state last : σ}
    {outputs : List ο} (start : invariant state)
    (ran : runAll step commands state = .ok (outputs, last)) :
    EachStep step condition commands state ↔ EachStep step condition' commands state := by
  induction commands generalizing state outputs with
  | nil => exact Iff.rfl
  | cons command commands ih =>
      obtain ⟨output, next, rest, first, later, -⟩ := runAll_cons_eq_ok.mp ran
      have here := all command (List.mem_cons_self ..)
      rw [eachStep_cons_of_ok first, eachStep_cons_of_ok first,
        agree command state output next start here first]
      refine and_congr_right fun met => ?_
      exact ih (fun later member => all later (List.mem_cons_of_mem _ member))
        (kept command state output next start here met first) later

/-- What each step keeps of the commands so far, a run keeps of all of them. -/
theorem runAll_history {invariant : List ι → σ → Prop}
    (kept : ∀ past command state output next, invariant past state →
      step command state = .ok (output, next) → invariant (past ++ [command]) next)
    {past commands : List ι} {state last : σ} {outputs : List ο} (start : invariant past state)
    (ran : runAll step commands state = .ok (outputs, last)) :
      invariant (past ++ commands) last := by
  induction commands generalizing past state outputs with
  | nil =>
      cases ran
      rw [List.append_nil]
      exact start
  | cons command commands ih =>
      obtain ⟨output, next, rest, first, later, -⟩ := runAll_cons_eq_ok.mp ran
      rw [List.append_cons]
      exact ih (kept past command state output next start first) later

/-- What the commands of a run achieve, and later ones do not undo, is achieved at
its end. -/
theorem runAll_achieves {γ : Type*} {condition : ι → Prop} {invariant : σ → Prop}
    {achieves : ι → γ → Prop} {achieved : γ → σ → Prop}
    (kept : ∀ command state output next, invariant state → condition command →
      step command state = .ok (output, next) → invariant next ∧
        ∀ goal, achieved goal state ∨ achieves command goal → achieved goal next)
    {commands : List ι} {state last : σ} {outputs : List ο} (start : invariant state)
    (each : ∀ command ∈ commands, condition command)
    (ran : runAll step commands state = .ok (outputs, last)) :
    invariant last ∧ ∀ goal, (achieved goal state ∨ ∃ command ∈ commands, achieves command goal) →
      achieved goal last := by
  induction commands generalizing state outputs with
  | nil =>
      cases ran
      refine ⟨start, ?_⟩
      rintro goal (already | ⟨command, member, -⟩)
      · exact already
      · cases member
  | cons command commands ih =>
      obtain ⟨output, next, rest, first, later, -⟩ := runAll_cons_eq_ok.mp ran
      obtain ⟨holds, gained⟩ := kept command state output next start (each command (by simp)) first
      obtain ⟨lasts, achieved⟩ := ih holds (fun later member => each later (by simp [member])) later
      refine ⟨lasts, ?_⟩
      rintro goal (already | ⟨achiever, member, achieves⟩)
      · exact achieved goal (.inl (gained goal (.inl already)))
      · rcases List.mem_cons.mp member with rfl | inside
        · exact achieved goal (.inl (gained goal (.inr achieves)))
        · exact achieved goal (.inr ⟨achiever, inside, achieves⟩)

/-- A run that fails does so in a step from a state with the invariant. -/
theorem runAll_error {condition : σ → ι → Prop} {invariant : σ → Prop}
    (kept : ∀ command state output next, invariant state → condition state command →
      step command state = .ok (output, next) → invariant next)
    {commands : List ι} {state : σ} {failure : ε} (start : invariant state)
    (each : EachStep step condition commands state)
    (failed : runAll step commands state = .error failure) :
    ∃ command before, invariant before ∧ condition before command ∧
      step command before = .error failure := by
  induction commands generalizing state with
  | nil => cases failed
  | cons command commands ih =>
      cases stepped : step command state with
      | error failure' =>
          simp only [runAll, stepped, error_bind] at failed
          cases failed
          exact ⟨command, state, start, each.1, stepped⟩
      | ok result =>
          obtain ⟨output, next⟩ := result
          refine ih (kept command state output next start each.1 stepped)
            (each.2 output next stepped) ?_
          simp only [runAll, stepped, ok_bind] at failed
          cases later : runAll step commands next with
          | error failure' =>
              rw [later] at failed
              exact failed
          | ok result =>
              rw [later] at failed
              cases failed

/-- What the computation returns has a property. -/
def Ensures (post : α → Prop) (outcome : Except ε α) : Prop :=
    ∀ value, outcome = .ok value → post value

section Ensures

variable {post : α → Prop} {later : β → Prop}

theorem ensures_ok {value : α} (holds : post value) : Ensures post (.ok value : Except ε α) := by
  intro value' same
  cases same
  exact holds

theorem ensures_error (failure : ε) : Ensures post (.error failure) := nofun

theorem Ensures.bind {first : Except ε α} {next : α → Except ε β} (start : Ensures post first)
    (continues : ∀ value, post value → Ensures later (next value)) :
    Ensures later (first >>= next) := by
  intro result ran
  obtain ⟨value, isValue, rest⟩ := bind_eq_ok_iff.mp ran
  exact continues value (start value isValue) result rest

theorem ensures_ite {condition : Prop} [Decidable condition] {first second : Except ε α}
    (yes : Ensures post first) (no : Ensures post second) :
    Ensures post (if condition then first else second) := by
  split
  · exact yes
  · exact no

end Ensures

/-- The second computation returns whatever the first one returns. -/
def Extends (first second : Except ε α) : Prop := ∀ value, first = .ok value → second = .ok value

section Extends

theorem extends_refl (outcome : Except ε α) : Extends outcome outcome := fun _ ran => ran

theorem extends_error (failure : ε) (outcome : Except ε α) : Extends (.error failure) outcome :=
  nofun

theorem Extends.bind {first first' : Except ε α} {next next' : α → Except ε β}
    (start : Extends first first') (later : ∀ value, Extends (next value) (next' value)) :
    Extends (first >>= next) (first' >>= next') := by
  intro result ran
  obtain ⟨value, isValue, rest⟩ := bind_eq_ok_iff.mp ran
  exact bind_eq_ok_iff.mpr ⟨value, start value isValue, later value result rest⟩

theorem extends_ite {condition : Prop} [Decidable condition]
    {first second first' second' : Except ε α}
    (yes : Extends first first') (no : Extends second second') :
    Extends (if condition then first else second) (if condition then first' else second') := by
  split
  · exact yes
  · exact no

/-- Runs extend one another when the steps do that were taken. -/
theorem runAll_extends {step' : ι → σ → Except ε (ο × σ)} {commands : List ι}
    (each : ∀ command ∈ commands, ∀ state, Extends (step command state) (step' command state))
    (state : σ) : Extends (runAll step commands state) (runAll step' commands state) := by
  induction commands generalizing state with
  | nil => exact extends_refl _
  | cons command commands ih =>
      apply (each command (List.mem_cons_self ..) state).bind
      intro result
      apply (ih (fun later member => each later (List.mem_cons_of_mem _ member)) result.2).bind
      intro results
      exact extends_refl _

/-- A run ends with its last command. -/
theorem runAll_append_eq_ok {commands : List ι} {command : ι} {state last : σ} {outputs : List ο} :
    runAll step (commands ++ [command]) state = .ok (outputs, last) ↔
      ∃ firsts middle output, runAll step commands state = .ok (firsts, middle) ∧
        step command middle = .ok (output, last) ∧ outputs = firsts ++ [output] := by
  induction commands generalizing state outputs with
  | nil =>
      rw [List.nil_append, runAll_cons_eq_ok]
      constructor
      · rintro ⟨output, next, rest, stepped, ended, rfl⟩
        cases ended
        exact ⟨[], state, output, rfl, stepped, rfl⟩
      · rintro ⟨firsts, middle, output, ran, stepped, rfl⟩
        cases ran
        exact ⟨output, last, [], stepped, rfl, rfl⟩
  | cons first commands ih =>
      rw [List.cons_append, runAll_cons_eq_ok]
      constructor
      · rintro ⟨output, next, rest, stepped, later, rfl⟩
        obtain ⟨firsts, middle, final, ran, ends, rfl⟩ := ih.mp later
        exact ⟨output :: firsts, middle, final,
          runAll_cons_eq_ok.mpr ⟨output, next, firsts, stepped, ran, rfl⟩, ends, rfl⟩
      · rintro ⟨firsts, middle, final, ran, ends, rfl⟩
        obtain ⟨output, next, rest, stepped, later, rfl⟩ := runAll_cons_eq_ok.mp ran
        exact ⟨output, next, rest ++ [final], stepped,
          ih.mpr ⟨rest, middle, final, later, ends, rfl⟩, rfl⟩

/-- What a run did before its end was a run. -/
theorem runAll_take {commands : List ι} {state last : σ} {outputs : List ο} (number : Nat)
    (ran : runAll step commands state = .ok (outputs, last)) :
    ∃ outputs middle, runAll step (commands.take number) state = .ok (outputs, middle) := by
  induction commands generalizing state outputs number with
  | nil =>
      rw [List.take_nil]
      exact ⟨outputs, last, ran⟩
  | cons command commands ih =>
      cases number with
      | zero => exact ⟨[], state, rfl⟩
      | succ number =>
          obtain ⟨output, next, rest, stepped, later, -⟩ := runAll_cons_eq_ok.mp ran
          obtain ⟨outputs, middle, taken⟩ := ih number later
          exact ⟨output :: outputs, middle,
            runAll_cons_eq_ok.mpr ⟨output, next, outputs, stepped, taken, rfl⟩⟩

end Extends

/-- Two computations agree when they fail alike or return related results. -/
def Agree {α' : Type u} (relation : α → α' → Prop) : Except ε α → Except ε α' → Prop
  | .ok first, .ok second => relation first second
  | .error first, .error second => first = second
  | _, _ => False

section Agree

variable {σ' α' β' : Type u}

/-- Agreeing computations are continued where both have returned. -/
theorem Agree.bind_of_ok {relation : α → α' → Prop} {relation' : β → β' → Prop}
    {first : Except ε α} {second : Except ε α'} {next : α → Except ε β} {next' : α' → Except ε β'}
    (agree : Agree relation first second)
    (continues : ∀ value value', first = .ok value → second = .ok value' →
      relation value value' → Agree relation' (next value) (next' value')) :
    Agree relation' (first >>= next) (second >>= next') := by
  cases first with
  | error failure =>
      cases second with
      | error failure' => exact agree
      | ok value' => exact agree.elim
  | ok value =>
      cases second with
      | error failure' => exact agree.elim
      | ok value' => exact continues value value' rfl rfl agree

theorem Agree.bind {relation : α → α' → Prop} {relation' : β → β' → Prop}
    {first : Except ε α} {second : Except ε α'} {next : α → Except ε β} {next' : α' → Except ε β'}
    (agree : Agree relation first second)
    (continues :
      ∀ value value', relation value value' → Agree relation' (next value) (next' value')) :
    Agree relation' (first >>= next) (second >>= next') :=
  agree.bind_of_ok fun value value' _ _ => continues value value'

/-- Where only the first computation goes on. -/
theorem Agree.bind_left {relation : α → α' → Prop} {relation' : β → α' → Prop}
    {first : Except ε α} {second : Except ε α'} {next : α → Except ε β}
    (agree : Agree relation first second)
    (continues : ∀ value value', first = .ok value → relation value value' →
      Agree relation' (next value) (.ok value')) :
    Agree relation' (first >>= next) second := by
  have whole := agree.bind_of_ok fun value value' ran _ => continues value value' ran
  rwa [show second >>= Except.ok = second from bind_pure second] at whole

/-- Where only the second computation goes on. -/
theorem Agree.bind_right {relation : α → α' → Prop} {relation' : α → β' → Prop}
    {first : Except ε α} {second : Except ε α'} {next' : α' → Except ε β'}
    (agree : Agree relation first second)
    (continues : ∀ value value', relation value value' →
      Agree relation' (.ok value) (next' value')) :
    Agree relation' first (second >>= next') := by
  have whole := agree.bind continues
  rwa [show first >>= Except.ok = first from bind_pure first] at whole

theorem Agree.ok_left {relation : α → α' → Prop} {value : α} {outcome : Except ε α'}
    (agree : Agree relation (.ok value) outcome) :
      ∃ value', outcome = .ok value' ∧ relation value value' := by
  cases outcome with
  | error failure => exact agree.elim
  | ok value' => exact ⟨value', rfl, agree⟩

theorem Agree.ok_right {relation : α → α' → Prop} {value' : α'} {outcome : Except ε α}
    (agree : Agree relation outcome (.ok value')) :
    ∃ value, outcome = .ok value ∧ relation value value' := by
  cases outcome with
  | error failure => exact agree.elim
  | ok value => exact ⟨value, rfl, agree⟩

theorem Agree.error_left {relation : α → α' → Prop} {failure : ε} {outcome : Except ε α'}
    (agree : Agree relation (.error failure) outcome) : outcome = .error failure := by
  cases outcome with
  | error failure' => rw [show failure = failure' from agree]
  | ok value' => exact agree.elim

/-- Agreement composes, by way of the result in the middle. -/
theorem Agree.trans {relation : α → α' → Prop} {relation' : α' → β' → Prop} {first : Except ε α}
    {second : Except ε α'} {third : Except ε β'} (agree : Agree relation first second)
    (agree' : Agree relation' second third) :
    Agree (fun value value' => ∃ middle, relation value middle ∧ relation' middle value')
      first third := by
  cases first with
  | error failure =>
      rw [agree.error_left] at agree'
      rw [agree'.error_left]
      rfl
  | ok value =>
      obtain ⟨middle, isMiddle, related⟩ := agree.ok_left
      rw [isMiddle] at agree'
      obtain ⟨value', isValue, related'⟩ := agree'.ok_left
      rw [isValue]
      exact ⟨middle, related, related'⟩

theorem Agree.mono {relation relation' : α → α' → Prop} {first : Except ε α}
    {second : Except ε α'} (agree : Agree relation first second)
    (weaker : ∀ value value', relation value value' → relation' value value') :
    Agree relation' first second := by
  cases first with
  | error failure =>
      rw [agree.error_left]
      rfl
  | ok value =>
      obtain ⟨value', isValue, related⟩ := agree.ok_left
      rw [isValue]
      exact weaker value value' related

/-- Runs agree when steps do. -/
theorem runAll_agree {relation : σ → σ' → Prop} {step' : ι → σ' → Except ε (ο × σ')}
    (agree : ∀ command state state', relation state state' →
      Agree (fun first second => first.1 = second.1 ∧ relation first.2 second.2)
        (step command state) (step' command state'))
    (commands : List ι) {state : σ} {state' : σ'} (related : relation state state') :
    Agree (fun first second => first.1 = second.1 ∧ relation first.2 second.2)
      (runAll step commands state) (runAll step' commands state') := by
  induction commands generalizing state state' with
  | nil => exact ⟨rfl, related⟩
  | cons command commands ih =>
      refine (agree command state state' related).bind ?_
      rintro ⟨output, next⟩ ⟨output', next'⟩ ⟨same, nextRelated⟩
      refine (ih nextRelated).bind ?_
      rintro ⟨outputs, last⟩ ⟨outputs', last'⟩ ⟨sameOutputs, lastRelated⟩
      exact ⟨congrArg₂ List.cons same sameOutputs, lastRelated⟩

end Agree

end DwBpf
