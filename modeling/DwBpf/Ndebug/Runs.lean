import DwBpf.Event.Runs
import DwBpf.Ndebug.Counting
import DwBpf.Ndebug.Teardown

/-! # Runs of both builds

A run in which every assertion holds goes through the same states without assertions,
and can be deleted in the same way, exactly when no call of it reports an executable
line (`DwBpf.ndebug_runs_same_iff`).
-/

namespace DwBpf

def Visit.isRecord : Visit → Bool
  | .record .. => true
  | _ => false

/-- Whether a call reports an executable line. -/
def Call.reports (call : Call) : Bool := call.visits.any Visit.isRecord

namespace Plain

variable {machine next : Plain}

/-- With assertions every reported line adds a map. -/
theorem Visited.mapCount_eq {visit : Visit} {middle : Plain} {tgid tid : Pid} {th : Ref Thread}
    (visited : Visited visit machine tgid tid th middle next)
    (accounted : machine.store.Accounted) :
    next.store.mapCount = machine.store.mapCount + if visit.isRecord then 1 else 0 := by
  have looked : middle.store.mapCount = machine.store.mapCount := by
    rw [Store.mapCount, visited.outcome.regroups.mapObjs, Store.mapCount]
  have worked := visited.worked
  rw [← looked]
  cases visit with
  | fault failure => cases visited.pair
  | record event created =>
      obtain ⟨-, thread, live, -⟩ := visited.home
      have middleAccounted := accounted.regroups visited.outcome.regroups
      obtain ⟨dso, found, maps, object, path, recorded⟩ := recorded_of_recordMap
        middleAccounted.interned live (visited.sound.linked th thread live) worked
      rw [Store.mapCount, recorded.allocated, Heap.count_alloc]
      rfl
  | resolve st uc created unwinder =>
      obtain ⟨⟨result, after⟩, resolved, done⟩ := bind_eq_ok_iff.mp worked
      have isNext : after = next.store := congrArg Prod.snd (Except.ok.inj done)
      rw [← isNext, Store.mapCount, (quiet_resolveThread resolved).mapObjs]
      rfl
  | iterate tgid callback =>
      obtain ⟨⟨result, after⟩, iterated, done⟩ := bind_eq_ok_iff.mp worked
      have isNext : after = next.store := congrArg Prod.snd (Except.ok.inj done)
      rw [← isNext, Store.mapCount, (quiet_iterateThread iterated).mapObjs]
      rfl

/-- Every visit that records a map adds one. -/
theorem mapCount_visits {visits : List Visit} {dones : List Unit} (sound : Sound none machine)
    (accounted : machine.store.Accounted)
    (ran : runAll (Visit.step findnewThread) visits machine = .ok (dones, next)) :
    next.store.mapCount = machine.store.mapCount + visits.countP Visit.isRecord := by
  induction visits generalizing machine dones with
  | nil =>
      cases ran
      rfl
  | cons visit visits ih =>
      obtain ⟨done, middle, rest, visitRan, later, -⟩ := runAll_cons_eq_ok.mp ran
      obtain ⟨tgid, tid, th, found, visited⟩ := visit_cases sound visitRan
      rw [ih visited.sound_next (visited.accounted accounted) later, visited.mapCount_eq accounted,
        List.countP_cons]
      omega

theorem mapCount_step {call : Call} {reply : Reply} (sound : Sound none machine)
    (accounted : machine.store.Accounted)
    (stepped : Plain.step call machine = .ok (reply, next)) :
    next.store.mapCount = machine.store.mapCount + call.visits.countP Visit.isRecord := by
  obtain ⟨dones, ran⟩ := visits_of_step findnewThread stepped
  exact mapCount_visits sound accounted ran

end Plain

namespace Ndebug

/-- Calls that report no executable line are the same. -/
theorem extends_prepareLines (tgid tid : Pid) (created : Bool) (lines : List (List Char))
    (scratch : Scratch) (machine : Machine)
    (silent : (visitLines tgid tid created lines scratch).any Visit.isRecord = false) :
    Extends (DwBpf.prepareLines Machine.findnewThread tgid tid created lines scratch machine)
      (prepareLines findnewThread tgid tid lines scratch machine) := by
  induction lines generalizing scratch with
  | nil => exact extends_refl _
  | cons bf rest ih =>
      rw [DwBpf.prepareLines, prepareLines]
      rw [visitLines] at silent
      cases read : scratch.line bf tgid tid with
      | error failure => exact extends_error _ _
      | ok result =>
          obtain ⟨event, scratch⟩ := result
          rw [read] at silent
          cases event with
          | none => exact ih scratch silent
          | some event => cases silent

/-- A call without a report for the user that returns does so without assertions. -/
theorem extends_step {call : Call} (silent : call.reports = false) (machine : Machine) :
    Extends (Machine.step call machine) (step call machine) := by
  cases call with
  | threadMap tgid tid text scratch created =>
      cases text with
      | none => exact extends_refl _
      | some text =>
          refine Extends.bind ?_ fun _ => extends_refl _
          refine Extends.bind ?_ fun _ => extends_refl _
          exact extends_prepareLines tgid tid created _ scratch machine silent
  | resolveCallchain st uc created unwinder =>
      refine Extends.bind ?_ fun _ => extends_refl _
      exact extends_withThread extends_findnewThread (extends_resolveThread st uc created unwinder)
        machine uc.tgid uc.tid
  | dlIteratePhdr tgid callback =>
      refine Extends.bind ?_ fun _ => extends_refl _
      have same : ∀ store th, Extends (DwBpf.iterateThread callback store th)
          (iterateThread callback store (some th)) := fun _ _ => extends_refl _
      exact extends_withThread extends_findnewThread same machine tgid tgid

/-- A call that reports a line adds no map. -/
theorem mapCount_le {call : Call} {machine next : Machine} {reply : Reply}
    (reports : call.reports = true) (stepped : step call machine = .ok (reply, next)) :
    next.store.mapCount ≤ machine.store.mapCount := by
  cases call with
  | threadMap tgid tid text scratch created =>
      cases text with
      | none => cases reports
      | some text =>
          obtain ⟨⟨status, after⟩, mapped, done⟩ := bind_eq_ok_iff.mp stepped
          obtain ⟨last, prepared, ended⟩ := bind_eq_ok_iff.mp mapped
          cases ended
          cases done
          exact ensures_prepareLines tgid tid _ scratch (Nat.le_refl _) next prepared
  | resolveCallchain st uc created unwinder => cases reports
  | dlIteratePhdr tgid callback => cases reports

end Ndebug

/-- With assertions a call that reports a line adds a map. -/
theorem Machine.mapCount_lt {calls : List Call} {call : Call} {replies : List Reply}
    {machine next : Machine} {reply : Reply} (reports : call.reports = true)
    (ran : runAll Machine.step calls Machine.new = .ok (replies, machine))
    (stepped : Machine.step call machine = .ok (reply, next)) :
    machine.store.mapCount < next.store.mapCount := by
  obtain ⟨plain, matched, accounted⟩ := Machine.accounted_of_run ran
  have agree := agree_step call machine plain matched
  rw [stepped] at agree
  obtain ⟨⟨reply', after⟩, plainStepped, -, afterMatched⟩ := agree.ok_left
  replace afterMatched : Matches next after := afterMatched
  rw [matched.1.store, afterMatched.1.store, Plain.mapCount_step matched.2 accounted plainStepped]
  obtain ⟨visit, member, isRecord⟩ := List.any_eq_true.mp reports
  exact Nat.lt_add_of_pos_right (List.countP_pos_iff.mpr ⟨visit, member, isRecord⟩)

/-- A run in which every assertion holds goes through the same states with the same replies
without assertions, and the machine is deleted in the same way, exactly when no call of
the run reports an executable line. -/
theorem ndebug_runs_same_iff {calls : List Call} {replies : List Reply} {machine : Machine}
    (ran : runAll Machine.step calls Machine.new = .ok (replies, machine)) :
    ((∀ number, runAll Ndebug.step (calls.take number) Machine.new =
        runAll Machine.step (calls.take number) Machine.new) ∧
      ∀ rb links last, Teardown.machineDelete rb (.start machine links) = .ok last →
        Teardown.Ndebug.machineDelete rb (.start machine links) = .ok last) ↔
      ∀ call ∈ calls, call.reports = false := by
  constructor
  · rintro ⟨same, -⟩ call member
    by_contra loud
    have reports : call.reports = true := Bool.eq_true_of_not_eq_false loud
    obtain ⟨before, after, rfl⟩ := List.append_of_mem member
    have taken : (before ++ call :: after).take (before.length + 1) = before ++ [call] := by
      rw [List.take_append, List.take_of_length_le (Nat.le_succ _), Nat.add_sub_cancel_left]
      rfl
    obtain ⟨outputs, next, ranNext⟩ := runAll_take (before.length + 1) ran
    have sameNext := (same (before.length + 1)).trans ranNext
    have sameBefore := same before.length
    rw [taken] at ranNext sameNext
    rw [List.take_left] at sameBefore
    obtain ⟨firsts, middle, reply, ranBefore, stepped, -⟩ := runAll_append_eq_ok.mp ranNext
    obtain ⟨firsts', middle', reply', ranBefore', stepped', -⟩ := runAll_append_eq_ok.mp sameNext
    cases (sameBefore.trans ranBefore).symm.trans ranBefore'
    have more := Machine.mapCount_lt reports ranBefore stepped
    have fewer := Ndebug.mapCount_le reports stepped'
    omega
  · intro silent
    refine ⟨?_, ?_⟩
    · intro number
      obtain ⟨outputs, middle, taken⟩ := runAll_take number ran
      rw [taken]
      refine runAll_extends ?_ Machine.new (outputs, middle) taken
      intro call member
      exact Ndebug.extends_step (silent call (List.mem_of_mem_take member))
    · intro rb links last deleted
      exact Teardown.Ndebug.extends_machineDelete rb _ last deleted

theorem ndebug_runs_same_iff_sample :
    ∃ replies machine, runAll Machine.step [.sample 1 1] Machine.new = .ok (replies, machine) ∧
      (∀ number, runAll Ndebug.step (([.sample 1 1] : List Call).take number) Machine.new =
        runAll Machine.step (([.sample 1 1] : List Call).take number) Machine.new) ∧
      ∀ rb links last, Teardown.machineDelete rb (.start machine links) = .ok last →
        Teardown.Ndebug.machineDelete rb (.start machine links) = .ok last := by
  have run : ∃ replies machine, runAll Machine.step [.sample 1 1] Machine.new =
      .ok (replies, machine) := ⟨_, _, rfl⟩
  obtain ⟨replies, machine, ran⟩ := run
  have silent : ∀ call ∈ ([.sample 1 1] : List Call), call.reports = false := by
    intro call member
    rw [List.mem_singleton.mp member]
    rfl
  exact ⟨replies, machine, ran, (ndebug_runs_same_iff ran).mpr silent⟩

/-- The map of a process is reported with assertions, and not without them. -/
theorem mapLs_not_recorded_ndebug :
    (∃ machine, runAll Machine.step [.mapLs 1 1, .dlIteratePhdr 1 fun _ _ => 0] Machine.new =
      .ok ([.mapped 0, .iterated 0 [⟨0x400000, 0x48c000, "/bin/ls".toList⟩]], machine)) ∧
    ∃ machine, runAll Ndebug.step [.mapLs 1 1, .dlIteratePhdr 1 fun _ _ => 0] Machine.new =
      .ok ([.mapped 0, .iterated 0 []], machine) :=
  ⟨⟨_, rfl⟩, _, rfl⟩

end DwBpf
