import DwBpf.Atlas.Resolving
import DwBpf.Event.Image
import DwBpf.Foundation.Beside

/-! # Every run answers as the atlas says

Where each thread stays in its process, and the leader of each process is one of its
threads, the recorded ranges of a process do not overlap, and the operating system and
libelf answer from one disk, every run of calls of the library answers what the atlas
answers, and fails where it does (`DwBpf.runs_refine_atlas`).
-/

namespace DwBpf

/-- The call is for a thread of its process, to which the leader belongs too, records
ranges of the layout only, and is answered from the disk. A stacktrace has room for its entries. -/
structure Call.Fits (disk : Disk) (group : Pid → Pid) (layout : Pid → List Range) (call : Call) :
    Prop where
  stable : call.Stable group
  offered : ∀ tgid range, call.Records tgid range → range ∈ layout tgid
  served : ∀ st uc created unwinder, call = .resolveCallchain st uc created unwinder →
    ∀ request ∈ unwinder.requests, request.FromDisk disk (layout uc.tgid) uc
  roomy : ∀ st uc created unwinder, call = .resolveCallchain (some st) uc created unwinder →
    st.Roomy

namespace Plain

variable {machine : Plain} {disk : Disk} {group : Pid → Pid} {layout : Pid → List Range}
  {spent : Nat} {atlas : Atlas} {tgid tid : Pid} {call : Call}

/-- Work on a thread of the right process agrees with the atlas if it does where the lookup
has found the thread. -/
theorem Drawn.agree_withThread {α : Type} {work : Store → Ref Thread → Except Fault (α × Store)}
    {answers : Except Fault (α × Atlas)} (steady : Machine.Work α work)
    (drawn : Drawn disk group layout spent machine atlas) (sound : Sound none machine)
    (own : group tid = tgid) (leads : group tgid = tgid) (enough : spent + 2 < 2 ^ 32)
    (agrees : ∀ th middle, Drawn disk group layout (spent + 1) middle atlas →
      Sound none middle → Home middle tgid tid th →
      (∀ thread, middle.store.threads.get? th = some thread → 2 ≤ thread.refcnt.toNat) →
      Agree (fun first second => first.1 = second.1 ∧
          Drawn disk group layout (spent + 1) ⟨first.2, middle.table⟩ second.2)
        (work middle.store th) answers) :
    Agree (fun first second => first.1 = second.1 ∧ Sound none first.2 ∧
        Drawn disk group layout (spent + 1) first.2 second.2)
      (withThread findnewThread machine tgid tid work) answers := by
  obtain ⟨failure, outcome, -⟩ | ⟨th, middle, outcome, middleSound, home, goes⟩ :=
    @withThread_cases machine α work sound tgid tid
  · exact absurd outcome (drawn.not_error sound own)
  · obtain ⟨drawnMiddle, two⟩ := drawn.looked sound outcome own leads enough
    rw [goes]
    refine (agrees th middle drawnMiddle middleSound home two).bind_left ?_
    intro result answer ran related
    obtain ⟨same, drawnNext⟩ := related
    obtain ⟨-, thread, live, -⟩ := home
    have linked := middleSound.linked th thread live
    have quiet := steady _ th thread result.1 result.2 live linked ran
    exact ⟨same, middleSound.steady quiet, drawnNext⟩

/-- A visit that records a map of the process, or fails, is one of the atlas. -/
theorem Drawn.agree_visit {visit : Visit} (drawn : Drawn disk group layout spent machine atlas)
    (sound : Sound none machine)
    (records : (∃ failure, visit = .fault failure) ∨
      ∃ event created, visit = .record event created ∧ group event.tid = event.tgid ∧
        group event.tgid = event.tgid ∧ event.range ∈ layout event.tgid)
    (enough : spent + 2 < 2 ^ 32) :
    Agree (fun first second => first.1 = second.1 ∧ Sound none first.2 ∧
        Drawn disk group layout (spent + 1) first.2 second.2)
      (visit.step findnewThread machine) (Atlas.visit disk visit atlas) := by
  obtain ⟨failure, rfl⟩ | ⟨event, created, rfl, own, leads, offered⟩ := records
  · rfl
  · refine drawn.agree_withThread (Visit.work_steady _) sound own leads enough ?_
    intro th middle drawnMiddle middleSound home two
    have agree := @Drawn.agree_recordMap middle th disk group layout (spent + 1) atlas event created
      drawnMiddle middleSound home two offered
    refine agree.bind_right ?_
    intro result recorded drawnNext
    exact ⟨rfl, drawnNext⟩

/-- The visits of a text that is read are those of the atlas. -/
theorem Drawn.agree_visits {text : Option (List Char)} {scratch : Scratch} {created : Bool}
    (fits : (Call.threadMap tgid tid text scratch created).Fits disk group layout)
    (drawn : Drawn disk group layout spent machine atlas) (sound : Sound none machine)
    (enough : spent + (Call.threadMap tgid tid text scratch created).visits.length ≤ 2 ^ 32 - 2) :
    Agree (fun first second => first.1 = second.1 ∧ Sound none first.2 ∧
        Drawn disk group layout
          (spent + (Call.threadMap tgid tid text scratch created).visits.length)
          first.2 second.2)
      (runAll (Visit.step findnewThread)
        (Call.threadMap tgid tid text scratch created).visits machine)
      (runAll (Atlas.visit disk) (Call.threadMap tgid tid text scratch created).visits atlas) := by
  have length : ((Call.threadMap tgid tid text scratch created).visits.map fun _ => 1).sum =
      (Call.threadMap tgid tid text scratch created).visits.length := by
    simp
  have agree : ∀ visit spent machine atlas,
      visit ∈ (Call.threadMap tgid tid text scratch created).visits → spent + 1 ≤ 2 ^ 32 - 2 →
      (Sound none machine ∧ Drawn disk group layout spent machine atlas) →
      Agree (fun first second => first.1 = second.1 ∧ Sound none first.2 ∧
          Drawn disk group layout (spent + 1) first.2 second.2)
        (visit.step findnewThread machine) (Atlas.visit disk visit atlas) := by
    intro visit spent machine atlas member room related
    refine related.2.agree_visit related.1 ?_ (by omega)
    obtain rfl | ⟨event, rfl, same⟩ := Call.visits_threadMap_cases member
    · exact .inl ⟨_, rfl⟩
    · refine .inr ⟨event, created, rfl, ?_⟩
      obtain ⟨isTgid, isTid⟩ := Prod.mk.inj same
      have stable := fits.stable
      rw [Call.Stable, Call.pair] at stable
      rw [isTgid, isTid]
      refine ⟨stable.1, stable.2, fits.offered tgid event.range ?_⟩
      exact ⟨event, created, member, isTgid, rfl⟩
  rw [← length] at enough ⊢
  exact runAll_agree_within agree (fun _ member => member) enough ⟨sound, drawn⟩

/-- A call answers as the atlas says. -/
theorem Drawn.agree_call (drawing : ∀ tgid, Layout (layout tgid))
    (fits : call.Fits disk group layout) (drawn : Drawn disk group layout spent machine atlas)
    (sound : Sound none machine) (enough : spent + call.visits.length ≤ 2 ^ 32 - 2) :
    Agree (fun first second => first.1 = second.1 ∧ Sound none first.2 ∧
        Drawn disk group layout (spent + call.visits.length) first.2 second.2)
      (Plain.step call machine) (Atlas.step disk call atlas) := by
  cases call with
  | threadMap tgid tid text scratch created =>
      cases text with
      | none => exact ⟨rfl, sound, drawn⟩
      | some text =>
          have agree := drawn.agree_visits fits sound enough
          rw [Plain.step, Call.step, threadMap, prepareLines_eq_visits, Atlas.step]
          change Agree _ ((Except.map Prod.snd (runAll (Visit.step findnewThread)
            (Call.threadMap tgid tid (some text) scratch created).visits machine) >>= _) >>= _) _
          cases ran : runAll (Visit.step findnewThread)
              (Call.threadMap tgid tid (some text) scratch created).visits machine with
          | error failure =>
              rw [ran] at agree
              rw [agree.error_left]
              rfl
          | ok result =>
              rw [ran] at agree
              obtain ⟨visited, isVisited, -, next⟩ := agree.ok_left
              rw [isVisited]
              exact ⟨rfl, next⟩
  | resolveCallchain st uc created unwinder =>
      have steady : Machine.Work Resolved (resolveThread st uc created unwinder) := by
        intro store th thread result next live linked ran
        exact (quiet_resolveThread ran).steady
      have stable := fits.stable
      have agree := drawn.agree_withThread steady sound stable.1 stable.2
        (by rw [Call.visits, List.length_singleton] at enough; omega)
        fun th middle drawnMiddle middleSound home two =>
          drawnMiddle.agree_resolveThread middleSound home (drawing uc.tgid)
            (fits.served st uc created unwinder rfl) st fun given same =>
              fits.roomy given uc created unwinder (by rw [same])
      refine agree.bind ?_
      intro first second related
      exact ⟨congrArg Reply.resolved related.1, related.2⟩
  | dlIteratePhdr tgid callback =>
      have steady : Machine.Work (Int × List PhdrInfo) (iterateThread callback) := by
        intro store th thread result next live linked ran
        exact (quiet_iterateThread ran).steady
      have leads : group tgid = tgid := fits.stable.1
      have agrees : ∀ th middle, Drawn disk group layout (spent + 1) middle atlas →
          Sound none middle → Home middle tgid tgid th →
          (∀ thread, middle.store.threads.get? th = some thread → 2 ≤ thread.refcnt.toNat) →
          Agree (fun first second => first.1 = second.1 ∧
              Drawn disk group layout (spent + 1) ⟨first.2, middle.table⟩ second.2)
            (iterateThread callback middle.store th)
            (.ok (PhdrInfo.visit callback ((atlas.ranges tgid).map Range.info) 0, atlas)) := by
        intro th middle drawnMiddle middleSound home two
        rw [drawnMiddle.iterateThread_eq middleSound home callback]
        exact ⟨rfl, drawnMiddle⟩
      have agree := drawn.agree_withThread steady sound leads leads
        (by rw [Call.visits, List.length_singleton] at enough; omega) agrees
      change Agree _ _ ((Except.ok (PhdrInfo.visit callback
        ((atlas.ranges tgid).map Range.info) 0, atlas) : Except Fault _) >>= fun result =>
          .ok (Reply.iterated result.1.1 result.1.2, result.2))
      refine agree.bind ?_
      intro first second related
      obtain ⟨same, next⟩ := related
      refine ⟨?_, next⟩
      exact congrArg (fun given : Int × List PhdrInfo => Reply.iterated given.1 given.2) same

end Plain

section Runs

variable {disk : Disk} {group : Pid → Pid} {layout : Pid → List Range} {calls : List Call}

/-- The atlas describes the machine behind the hashed table. -/
def Machine.Drawn (disk : Disk) (group : Pid → Pid) (layout : Pid → List Range) (spent : Nat)
    (machine : Machine) (atlas : Atlas) : Prop :=
  ∃ plain, Matches machine plain ∧ Plain.Drawn disk group layout spent plain atlas

/-- A call on the machine of the source answers as the atlas says. -/
theorem Machine.Drawn.agree_step {spent : Nat} {machine : Machine} {atlas : Atlas} {call : Call}
    (drawing : ∀ tgid, Layout (layout tgid)) (fits : call.Fits disk group layout)
    (enough : spent + call.visits.length ≤ 2 ^ 32 - 2)
    (drawn : machine.Drawn disk group layout spent atlas) :
    Agree (fun first second => first.1 = second.1 ∧
        Machine.Drawn disk group layout (spent + call.visits.length) first.2 second.2)
      (Machine.step call machine) (Atlas.step disk call atlas) := by
  obtain ⟨plain, matched, plainDrawn⟩ := drawn
  have agree := Machine.agree_step call machine plain matched
  refine (agree.trans (plainDrawn.agree_call drawing fits matched.2 enough)).mono ?_
  intro result answer related
  obtain ⟨plainResult, ⟨same, matchedNext⟩, sameAnswer, -, drawnNext⟩ := related
  exact ⟨same.trans sameAnswer, plainResult.2, matchedNext, drawnNext⟩

end Runs

/-- A member of process 1 and process 3 map the file, and process 1 is enumerated. -/
def Call.shared : List Call :=
  [.mapLs 1 2, .mapLs 3 3, .dlIteratePhdr 1 fun _ _ => 0]

/-- A sample of the member, with a word of its stack. -/
def UnwindCtx.member : UnwindCtx := ⟨0, 2, 1, fun _ => 0, fun _ => 0, 8, fun _ => 0⟩

end DwBpf
