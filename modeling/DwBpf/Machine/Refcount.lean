import DwBpf.Basic
import Mathlib.Data.Fintype.Card

/-! # Concurrent releases of a counted object

`refcount_dec_and_test` of `refcount.h` takes two atomic steps, a subtraction and
a load. The calls of several parties on one counter interleave in any order. The
party whose subtraction is the last always sees zero; it is the only one exactly
when its two steps are the last ones of all (`DwBpf.Release.one_last_iff`).
-/

namespace DwBpf

namespace Release

/-- How far a call of `refcount_dec_and_test` is. -/
inductive Phase where
  | called
  | subtracted
  | returned (last : Bool)
  deriving DecidableEq, Repr

/-- The counter `refs`, and the calls of `n` parties. -/
structure State (n : Nat) where
  refs : U32
  phase : Fin n → Phase

variable {n : Nat}

/-- The counter holds one reference for each party. -/
def State.start (n : Nat) : State n := ⟨BitVec.ofNat 32 n, fun _ => .called⟩

/-- The next atomic step of a party: `atomic_fetch_sub`, then `atomic_load`. -/
def step (state : State n) (who : Fin n) : State n :=
  match state.phase who with
  | .called => ⟨state.refs - 1, Function.update state.phase who .subtracted⟩
  | .subtracted =>
      { state with phase := Function.update state.phase who (.returned (state.refs = 0)) }
  | .returned _ => state

/-- The state that an interleaving leads to. -/
def run (schedule : List (Fin n)) : State n := schedule.foldl step (.start n)

/-- Each of the calls takes both of its steps. -/
def Complete (schedule : List (Fin n)) : Prop := ∀ who, schedule.count who = 2

theorem run_append_singleton (schedule : List (Fin n)) (who : Fin n) :
    run (schedule ++ [who]) = step (run schedule) who := by
  rw [run, List.foldl_append]
  rfl

/-- The steps of others leave a call where it is. -/
theorem phase_step_of_ne (state : State n) {who other : Fin n} (different : other ≠ who) :
    (step state who).phase other = state.phase other := by
  unfold step
  split
  · exact Function.update_of_ne different ..
  · exact Function.update_of_ne different ..
  · rfl

/-- How the state depends on the steps taken so far. -/
structure Reached (schedule : List (Fin n)) (state : State n) : Prop where
  refs : state.refs = BitVec.ofNat 32 (n - schedule.toFinset.card)
  called : ∀ who, schedule.count who = 0 → state.phase who = .called
  subtracted : ∀ who, schedule.count who = 1 → state.phase who = .subtracted
  last : ∀ who, state.phase who = .returned true → ∀ other, other ∈ schedule

theorem card_toFinset_le (schedule : List (Fin n)) : schedule.toFinset.card ≤ n := by
  have bound := Finset.card_le_univ schedule.toFinset
  rwa [Fintype.card_fin] at bound

/-- The counter is zero exactly when every party has subtracted. -/
theorem Reached.refs_eq_zero_iff {schedule : List (Fin n)} {state : State n}
    (reached : Reached schedule state) (fits : n < 2 ^ 32) :
    state.refs = 0 ↔ ∀ other, other ∈ schedule := by
  have bound := card_toFinset_le schedule
  have value : state.refs.toNat = n - schedule.toFinset.card := by
    rw [reached.refs, BitVec.toNat_ofNat, Nat.mod_eq_of_lt (by omega)]
  have zero : state.refs = 0 ↔ schedule.toFinset.card = n := by
    rw [← BitVec.toNat_inj, value]
    simp only [BitVec.ofNat_eq_ofNat, BitVec.toNat_ofNat, Nat.zero_mod]
    omega
  have full : schedule.toFinset.card = n ↔ schedule.toFinset = Finset.univ := by
    rw [← Finset.card_eq_iff_eq_univ, Fintype.card_fin]
  rw [zero, full, Finset.eq_univ_iff_forall]
  simp only [List.mem_toFinset]

theorem reached_start : Reached [] (State.start n) where
  refs := by simp [State.start]
  called := fun _ _ => rfl
  subtracted := fun _ once => nomatch once
  last := fun _ returned => nomatch returned

/-- Other parties' counts of steps stay. -/
theorem count_append_of_ne {schedule : List (Fin n)} {who other : Fin n} (different : other ≠ who) :
    (schedule ++ [who]).count other = schedule.count other := by
  rw [List.count_append, List.count_singleton, if_neg (by simpa using different.symm),
    Nat.add_zero]

theorem count_append_self (schedule : List (Fin n)) (who : Fin n) :
    (schedule ++ [who]).count who = schedule.count who + 1 := by
  rw [List.count_append, List.count_singleton_self]

/-- A step of one party leaves the calls of the others that have not started. -/
theorem Reached.called_step {schedule : List (Fin n)} {state : State n}
    (reached : Reached schedule state) {who other : Fin n}
    (none : (schedule ++ [who]).count other = 0) : (step state who).phase other = .called := by
  have different : other ≠ who := by
    rintro rfl
    rw [count_append_self] at none
    cases none
  rw [count_append_of_ne different] at none
  exact (phase_step_of_ne state different).trans (reached.called other none)

/-- The first step of a release subtracts one. -/
theorem Reached.subtract {schedule : List (Fin n)} {state : State n}
    (reached : Reached schedule state) {who : Fin n} (first : schedule.count who = 0) :
    Reached (schedule ++ [who]) (step state who) := by
  have called := reached.called who first
  have absent : who ∉ schedule := List.count_eq_zero.mp first
  have stepped : step state who =
      ⟨state.refs - 1, Function.update state.phase who .subtracted⟩ := by
    rw [step, called]
  refine ⟨?_, fun _ => reached.called_step, ?_, ?_⟩
  · rw [stepped]
    have added : (schedule ++ [who]).toFinset.card = schedule.toFinset.card + 1 := by
      rw [List.toFinset_append, List.toFinset_cons, List.toFinset_nil, Finset.union_comm,
        insert_empty_eq, Finset.singleton_union,
          Finset.card_insert_of_notMem (by simpa using absent)]
    have bound := card_toFinset_le (schedule ++ [who])
    rw [added] at bound
    rw [added, reached.refs]
    apply BitVec.eq_of_toNat_eq
    have one : (1 : U32).toNat = 1 := rfl
    simp only [BitVec.toNat_sub, BitVec.toNat_ofNat, one]
    omega
  · intro other once
    by_cases same : other = who
    · rw [stepped, same]
      exact Function.update_self ..
    · rw [count_append_of_ne same] at once
      exact (phase_step_of_ne state same).trans (reached.subtracted other once)
  · intro other returned
    have different : other ≠ who := by
      rintro rfl
      rw [stepped] at returned
      cases (Function.update_self ..).symm.trans returned
    have all := reached.last other ((phase_step_of_ne state different).symm.trans returned)
    exact absurd (all who) absent

/-- Its second step reads what the counter is by then. -/
theorem Reached.load {schedule : List (Fin n)} {state : State n} (reached : Reached schedule state)
    (fits : n < 2 ^ 32) {who : Fin n} (second : schedule.count who = 1) :
    Reached (schedule ++ [who]) (step state who) := by
  have subtracted := reached.subtracted who second
  have present : who ∈ schedule := List.count_pos_iff.mp (by omega)
  have stepped : step state who =
      { state with phase := Function.update state.phase who (.returned (state.refs = 0)) } := by
    rw [step, subtracted]
  refine ⟨?_, fun _ => reached.called_step, ?_, ?_⟩
  · rw [stepped]
    have same : (schedule ++ [who]).toFinset = schedule.toFinset := by
      ext other
      simp only [List.mem_toFinset, List.mem_append, List.mem_singleton, or_iff_left_iff_imp]
      rintro rfl
      exact present
    rw [same]
    exact reached.refs
  · intro other once
    have different : other ≠ who := by
      rintro rfl
      rw [count_append_self] at once
      omega
    rw [count_append_of_ne different] at once
    exact (phase_step_of_ne state different).trans (reached.subtracted other once)
  · intro other returned third
    apply List.mem_append_left
    by_cases same : other = who
    · rw [stepped, same] at returned
      have zero : Phase.returned (state.refs = 0) = .returned true :=
        (Function.update_self ..).symm.trans returned
      rw [Phase.returned.injEq, decide_eq_true_eq] at zero
      exact (reached.refs_eq_zero_iff fits).mp zero third
    · exact reached.last other ((phase_step_of_ne state same).symm.trans returned) third

/-- Every interleaving of at most two steps of each party. -/
theorem reached_run (fits : n < 2 ^ 32) (schedule : List (Fin n))
    (within : ∀ who, schedule.count who ≤ 2) : Reached schedule (run schedule) := by
  induction schedule using List.reverseRecOn with
  | nil => exact reached_start
  | append_singleton schedule who ih =>
      have before : ∀ other, schedule.count other ≤ 2 := by
        intro other
        have bound := within other
        rw [List.count_append] at bound
        omega
      have reached := ih before
      have bound := within who
      rw [count_append_self] at bound
      rw [run_append_singleton]
      rcases Nat.eq_zero_or_pos (schedule.count who) with first | later
      · exact reached.subtract first
      · exact reached.load fits (by omega)

/-- A load returns whether every party has subtracted before. -/
theorem phase_of_load (fits : n < 2 ^ 32) {front back : List (Fin n)} {who : Fin n}
    (within : ∀ other, front.count other ≤ 2) (second : front.count who = 1) (done : who ∉ back) :
    (run (front ++ who :: back)).phase who = .returned true ↔ ∀ other, other ∈ front := by
  have reached := reached_run fits front within
  induction back using List.reverseRecOn with
  | nil =>
      rw [run_append_singleton, step, reached.subtracted who second]
      simp only [Function.update_self, Phase.returned.injEq, decide_eq_true_eq]
      exact reached.refs_eq_zero_iff fits
  | append_singleton back other ih =>
      rw [List.mem_append, List.mem_singleton, not_or] at done
      rw [← List.cons_append, ← List.append_assoc, run_append_singleton,
        phase_step_of_ne _ done.2]
      exact ih done.1

/-- The call returned that it dropped the last reference. -/
def Last (schedule : List (Fin n)) (who : Fin n) : Prop :=
  (run schedule).phase who = .returned true

theorem count_le_of_complete {front back : List (Fin n)} (complete : Complete (front ++ back))
    (who : Fin n) : front.count who ≤ 2 := by
  have both := complete who
  rw [List.count_append] at both
  omega

/-- The step of a party at the end of an interleaving was its load, and it found
that every party had subtracted. -/
theorem last_of_end (fits : n < 2 ^ 32) {front : List (Fin n)} {who : Fin n}
    (complete : Complete (front ++ [who])) : Last (front ++ [who]) who := by
  have second : front.count who = 1 := by
    have both := complete who
    rw [count_append_self] at both
    omega
  refine (phase_of_load fits (count_le_of_complete complete) second List.not_mem_nil).mpr ?_
  intro other
  have both := complete other
  by_cases same : other = who
  · rw [same]
    exact List.count_pos_iff.mp (by omega)
  · rw [count_append_of_ne same] at both
    exact List.count_pos_iff.mp (by omega)

/-- In every interleaving of calls of `n` parties on a counter of `n` references,
exactly one call drops the last reference if and only if the last two steps are
taken by the same party. -/
theorem one_last_iff (positive : 1 ≤ n) (fits : n < 2 ^ 32) {schedule : List (Fin n)}
    (complete : Complete schedule) :
    (∃! who, Last schedule who) ↔ ∃ front who, schedule = front ++ [who, who] := by
  constructor
  · rintro ⟨only, isLast, unique⟩
    have steps : schedule ≠ [] := by
      rintro rfl
      cases complete ⟨0, positive⟩
    obtain ⟨most, who, rfl⟩ := (List.eq_nil_or_concat' schedule).resolve_left steps
    have second : most.count who = 1 := by
      have both := complete who
      rw [count_append_self] at both
      omega
    have stepsBefore : most ≠ [] := by
      rintro rfl
      cases second
    obtain ⟨front, other, rfl⟩ := (List.eq_nil_or_concat' most).resolve_left stepsBefore
    by_cases same : other = who
    · rw [same]
      exact ⟨front, who, by simp⟩
    · have ends : Last (front ++ [other] ++ [who]) who := last_of_end fits complete
      have once : ∀ party, [other, who].count party ≤ 1 :=
        List.nodup_iff_count_le_one.mp (by simp [same])
      have counts : ∀ party, front.count party + [other, who].count party = 2 := by
        intro party
        rw [← List.count_append, ← complete party, List.append_assoc]
        rfl
      have all : ∀ party, party ∈ front := by
        intro party
        have both := counts party
        have bound := once party
        exact List.count_pos_iff.mp (by omega)
      have secondOther : front.count other = 1 := by
        have both := counts other
        rw [List.count_cons_self, List.count_singleton,
          if_neg (by simpa using Ne.symm same)] at both
        omega
      have sees : Last (front ++ other :: [who]) other := by
        refine (phase_of_load fits (fun party => ?_) secondOther (by simpa using same)).mpr all
        have both := counts party
        omega
      rw [List.append_assoc] at ends unique
      exact absurd ((unique other sees).trans (unique who ends).symm) same
  · rintro ⟨front, who, rfl⟩
    have ends : front ++ [who, who] = front ++ [who] ++ [who] := by simp
    refine ⟨who, ?_, ?_⟩
    · rw [ends] at complete ⊢
      exact last_of_end fits complete
    · intro other isLast
      by_contra different
      have before : (run front).phase other = .returned true := by
        rw [Last, ends, run_append_singleton, phase_step_of_ne _ different, run_append_singleton,
          phase_step_of_ne _ different] at isLast
        exact isLast
      have present := (reached_run fits front (count_le_of_complete complete)).last other before who
      have both := complete who
      rw [List.count_append, List.count_cons_self, List.count_singleton_self] at both
      exact absurd (List.count_pos_iff.mpr present) (by omega)

/-- One party is done before the other starts. -/
theorem one_last_of_turns :
    ∃! who : Fin 2, Last [0, 0, 1, 1] who :=
  (one_last_iff (by decide) (by decide) (by unfold Complete; decide)).mpr ⟨[0, 0], 1, rfl⟩

/-- Two parties take turns: both see zero and destroy the object. -/
theorem both_last : Complete (n := 2) [0, 1, 0, 1] ∧
    ¬ ∃! who : Fin 2, Last [0, 1, 0, 1] who := by
  refine ⟨by unfold Complete; decide, ?_⟩
  rintro ⟨only, -, unique⟩
  have first : (0 : Fin 2) = only := unique 0 (by unfold Last; decide)
  have second : (1 : Fin 2) = only := unique 1 (by unfold Last; decide)
  exact absurd (first.trans second.symm) (by decide)

end Release

end DwBpf
