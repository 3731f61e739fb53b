import Mathlib.Algebra.BigOperators.Group.Finset.Basic
import Mathlib.Algebra.Order.BigOperators.Group.Finset
import Mathlib.Data.Fintype.BigOperators

/-! # Schedules

Several parties share a state. An action is one step of one of them, and it may not be
possible in a state. `DwBpf.follow` takes the actions of a schedule in turn. What every
step keeps holds after every schedule (`DwBpf.follow_invariant`), and a schedule whose
steps all use up a potential is no longer than the potential it starts with
(`DwBpf.length_le_of_follow`). What a weight of the parties adds up to
(`DwBpf.tally`) changes with the party that moves (`DwBpf.tally_update`).
-/

namespace DwBpf

section Follow

variable {σ ι : Type*} {step : ι → σ → Option σ} {actions : List ι} {state last : σ}

/-- The state after the actions, if each of them is possible in its turn. -/
def follow (step : ι → σ → Option σ) : List ι → σ → Option σ
  | [], state => some state
  | action :: actions, state => (step action state).bind (follow step actions)

theorem follow_cons_eq_some {action : ι} :
    follow step (action :: actions) state = some last ↔
      ∃ next, step action state = some next ∧ follow step actions next = some last :=
  Option.bind_eq_some_iff

theorem follow_append (more : List ι) :
    follow step (actions ++ more) state = (follow step actions state).bind (follow step more) := by
  induction actions generalizing state with
  | nil => rfl
  | cons action actions ih =>
      rw [List.cons_append, follow, follow, Option.bind_assoc]
      congr 1
      funext next
      exact ih

theorem follow_invariant (invariant : σ → Prop)
    (kept : ∀ action state next, invariant state → step action state = some next →
      invariant next)
    (start : invariant state) (followed : follow step actions state = some last) :
    invariant last := by
  induction actions generalizing state with
  | nil =>
      cases followed
      exact start
  | cons action actions ih =>
      obtain ⟨next, stepped, rest⟩ := follow_cons_eq_some.mp followed
      exact ih (kept action state next start stepped) rest

/-- A schedule is no longer than the potential that its steps use up. -/
theorem length_le_of_follow (invariant : σ → Prop) {potential : σ → Nat}
    (kept : ∀ action state next, invariant state → step action state = some next →
      invariant next)
    (falls : ∀ action ∈ actions, ∀ state next, invariant state → step action state = some next →
      potential next < potential state)
    (start : invariant state) (followed : follow step actions state = some last) :
    actions.length + potential last ≤ potential state := by
  induction actions generalizing state with
  | nil =>
      cases followed
      exact (Nat.zero_add _).le
  | cons action actions ih =>
      obtain ⟨next, stepped, rest⟩ := follow_cons_eq_some.mp followed
      have first := falls action List.mem_cons_self state next start stepped
      have others := ih (fun action member => falls action (List.mem_cons_of_mem _ member))
        (kept action state next start stepped) rest
      rw [List.length_cons]
      omega

end Follow

section Tally

variable {ω β : Type*} [Fintype ω] {weight : β → Nat} {places : ω → β}

/-- The weight of all parties together. -/
def tally (weight : β → Nat) (places : ω → β) : Nat := ∑ who, weight (places who)

/-- Only the weight of the party that moves changes. -/
theorem tally_update [DecidableEq ω] (weight : β → Nat) (places : ω → β) (who : ω) (place : β) :
    tally weight (Function.update places who place) + weight (places who) =
      tally weight places + weight place := by
  have others : ∑ other ∈ Finset.univ.erase who, weight (Function.update places who place other) =
      ∑ other ∈ Finset.univ.erase who, weight (places other) := by
    apply Finset.sum_congr rfl
    intro other member
    rw [Function.update_of_ne (Finset.ne_of_mem_erase member)]
  rw [tally, tally, ← Finset.sum_erase_add _ _ (Finset.mem_univ who), others,
    Function.update_self, ← Finset.sum_erase_add _ _ (Finset.mem_univ who)]
  exact Nat.add_right_comm ..

theorem weight_le_tally (who : ω) : weight (places who) ≤ tally weight places := by
  classical
  rw [tally, ← Finset.sum_erase_add _ _ (Finset.mem_univ who)]
  exact Nat.le_add_left ..

theorem tally_eq_zero_iff : tally weight places = 0 ↔ ∀ who, weight (places who) = 0 := by
  rw [tally, Finset.sum_eq_zero_iff]
  exact ⟨fun none who => none who (Finset.mem_univ who), fun none who _ => none who⟩

theorem exists_of_tally_pos (pos : 0 < tally weight places) :
    ∃ who, 0 < weight (places who) := by
  by_contra none
  have zero : tally weight places = 0 :=
    tally_eq_zero_iff.mpr fun who => Nat.eq_zero_of_not_pos fun heavy => none ⟨who, heavy⟩
  omega

end Tally

end DwBpf
