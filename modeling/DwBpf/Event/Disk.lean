import DwBpf.Event.Conservation
import DwBpf.Event.Lookup
import DwBpf.Event.Memory
import DwBpf.Unwind.EhFrameHdr

/-! # Files on the disk

Where the operating system and libelf answer from the files of one disk, what is known
of each dso is so on that disk, in every state of a walk over a stack and after every
run (`DwBpf.Machine.onDisk_of_answered`). What is read is then what the files have.
-/

namespace DwBpf

/-- The contents of the files by their names, and where libelf finds the section
`.eh_frame_hdr` in each. -/
structure Disk where
  files : List Char → File
  hdrs : List Char → U64

variable {disk : Disk} {store next : Store} {info : UnwindInfo} {os : Os} {elf : ElfAnswers}
  {ip addr : U64} {map : Map} {dso : Dso}

/-- What is known of each dso is so on the disk. -/
def Store.OnDisk (disk : Disk) (store : Store) : Prop :=
  ∀ ref dso, store.dsos.get? ref = some dso →
    Consistent (disk.files dso.longName) (disk.hdrs dso.longName) dso.data

/-- The operating system and libelf answer the request from the disk. -/
structure Request.Answered (disk : Disk) (info : UnwindInfo) (store : Store) (request : Request) :
    Prop where
  file : ∀ os ref dso, request.Consults store info os ref → store.dsos.get? ref = some dso →
    os.Serves (disk.files dso.longName)
  hdr : ∀ ip os elf searched map dso, request = .findProcInfo ip os elf searched →
    findMap store info ip = .ok (some map) → store.dsos.get? map.dso = some dso →
    elf.sectionOffset = disk.hdrs dso.longName

/-- Work on the data of a dso that stays consistent with its file leaves the store so. -/
theorem Store.OnDisk.withData {α : Type} {ref : Ref Dso} {result : α} {data : DsoData}
    {work : DsoData → Except Fault (α × DsoData)} (onDisk : store.OnDisk disk)
    (live : store.dsos.get? ref = some dso) (worked : work dso.data = .ok (result, data))
    (consistent : Consistent (disk.files dso.longName) (disk.hdrs dso.longName) data) :
    ∃ next, store.withData ref work = .ok (result, next) ∧ next.OnDisk disk := by
  refine ⟨store.modifyDso ref fun dso => { dso with data := data }, ?_, ?_⟩
  · rw [Store.withData, deref_of_get? live, ok_bind, worked]
    rfl
  · intro other object isLive
    obtain ⟨before, wasLive, rfl⟩ := Heap.get?_modify_eq_some.mp isLive
    by_cases same : other = ref
    · subst same
      cases live.symm.trans wasLive
      rw [if_pos rfl]
      exact consistent
    · rw [if_neg same]
      exact onDisk other before wasLive

/-- The word of the file that a map has at the address, if the file is that long. -/
theorem accessDsoMem_of_onDisk (onDisk : store.OnDisk disk)
    (found : findMap store info addr = .ok (some map)) (live : store.dsos.get? map.dso = some dso)
    (serves : os.Serves (disk.files dso.longName)) :
    ∃ next, next.OnDisk disk ∧ accessDsoMem os store info addr =
      if (map.mapIp addr).toNat + 8 ≤ (disk.files dso.longName).size then
        .ok ((0, littleEndian 64
          (((disk.files dso.longName).bytes.drop (map.mapIp addr).toNat).take 8)), next)
      else .ok ((1, 0), next) := by
  obtain ⟨data, read, consistent⟩ := DsoData.readOffset_of_consistent serves
    (onDisk _ dso live) (map.mapIp addr) (by decide : 8 < 2 ^ 63)
  have worked : DsoData.readBytes os (map.mapIp addr) 8 dso.data =
      .ok (((disk.files dso.longName).read (map.mapIp addr) 8), data) := by
    rw [DsoData.readBytes, read]
    rfl
  obtain ⟨next, ran, nextOnDisk⟩ := onDisk.withData live worked consistent
  refine ⟨next, nextOnDisk, ?_⟩
  have whole : ((disk.files dso.longName).read (map.mapIp addr) 8).1 = 8 ↔ _ :=
    (disk.files dso.longName).read_fst_eq_iff (map.mapIp addr) (by decide : 1 ≤ 8)
  rw [accessDsoMem, found, ok_bind]
  dsimp only
  rw [ran, ok_bind]
  dsimp only
  by_cases within : (map.mapIp addr).toNat + 8 ≤ (disk.files dso.longName).size
  · rw [if_pos within, if_pos (whole.mpr within), File.read_of_within within]
    rfl
  · rw [if_neg within, if_neg fun count => within (whole.mp count)]
    rfl

/-- What is found out about a dso of the name. -/
def Disk.spec (disk : Disk) (address : U64) (name : List Char) : Option UnwindSpec :=
  if disk.hdrs name ≠ 0 ∧ (disk.hdrs name).toNat + hdrSize ≤ (disk.files name).size then
    UnwindSpec.ofHeader address (disk.hdrs name)
      (((disk.files name).bytes.drop (disk.hdrs name).toNat).take hdrSize)
  else none

/-- `find_proc_info` answers from the header on the disk. -/
theorem findProcInfo_of_onDisk (onDisk : store.OnDisk disk)
    (found : findMap store info ip = .ok (some map)) (live : store.dsos.get? map.dso = some dso)
    (serves : os.Serves (disk.files dso.longName))
    (answered : elf.sectionOffset = disk.hdrs dso.longName) (searched : Int) :
    ∃ next, next.OnDisk disk ∧ findProcInfo os elf searched store info ip =
      match disk.spec elf.address dso.longName with
      | none => .ok ((negEinval, none), next)
      | some spec => .ok ((searched, some (DynInfo.of map spec)), next) := by
  obtain ⟨data, consistent, read⟩ :=
    readUnwindSpecEhFrame_of_consistent serves (onDisk _ dso live) answered
  obtain ⟨next, ran, nextOnDisk⟩ := onDisk.withData live read consistent
  refine ⟨next, nextOnDisk, ?_⟩
  rw [findProcInfo, found, ok_bind]
  dsimp only
  rw [ran, ok_bind]
  dsimp only
  rw [← Disk.spec]
  cases disk.spec elf.address dso.longName with
  | none => rfl
  | some spec => rfl

namespace Request

variable {request : Request} {answer : Answer}

/-- A word that is written, or is not looked for in the dsos, leaves them alone. -/
theorem store_of_not_consults {write : Bool}
    (asks : (Request.accessMem addr write os).consults info = none)
    (ran : (Request.accessMem addr write os).step info store = .ok (answer, next)) :
    next = store := by
  rw [consults, ite_eq_left_iff] at asks
  rw [step, DwBpf.accessMem, regValue_sp, ok_bind] at ran
  split at ran
  · cases ran
    rfl
  · rename_i reads
    split at ran
    · cases ran
      rfl
    · rename_i fits
      split at ran
      · obtain ⟨value, -, done⟩ := bind_eq_ok_iff.mp ran
        cases done
        rfl
      · rename_i outside
        rw [not_or] at reads
        refine absurd (asks ?_) (Option.some_ne_none _)
        rw [not_or, not_or, not_or]
        exact ⟨reads.1, reads.2, fits, outside⟩

/-- `find_proc_info` that is answered from the disk leaves the dsos as they are there. -/
theorem findProcInfo_onDisk {searched : Int} {result : Int × Option DynInfo}
    (onDisk : store.OnDisk disk)
    (answered : (Request.findProcInfo ip os elf searched).Answered disk info store)
    (ran : DwBpf.findProcInfo os elf searched store info ip = .ok (result, next)) :
    next.OnDisk disk := by
  obtain ⟨found, isFound, rest⟩ := bind_eq_ok_iff.mp ran
  cases found with
  | none =>
      cases rest
      exact onDisk
  | some map =>
      obtain ⟨⟨spec, last⟩, work, -⟩ := bind_eq_ok_iff.mp rest
      obtain ⟨dso, isLive, -⟩ := bind_eq_ok_iff.mp work
      have live := deref_eq_ok_iff.mp isLive
      obtain ⟨other, otherOnDisk, otherwise⟩ := findProcInfo_of_onDisk onDisk isFound live
        (answered.file os map.dso dso ⟨ip, map, rfl, isFound, rfl⟩ live)
        (answered.hdr ip os elf searched map dso rfl isFound live) searched
      rw [ran] at otherwise
      split at otherwise
      · cases otherwise
        exact otherOnDisk
      · cases otherwise
        exact otherOnDisk

/-- `access_dso_mem` likewise. -/
theorem accessDsoMem_onDisk {result : Int × U64} (onDisk : store.OnDisk disk)
    (serves : ∀ map dso, findMap store info addr = .ok (some map) →
      store.dsos.get? map.dso = some dso → os.Serves (disk.files dso.longName))
    (ran : accessDsoMem os store info addr = .ok (result, next)) : next.OnDisk disk := by
  obtain ⟨found, isFound, rest⟩ := bind_eq_ok_iff.mp ran
  cases found with
  | none =>
      cases rest
      exact onDisk
  | some map =>
      obtain ⟨⟨spec, last⟩, work, -⟩ := bind_eq_ok_iff.mp rest
      obtain ⟨dso, isLive, -⟩ := bind_eq_ok_iff.mp work
      have live := deref_eq_ok_iff.mp isLive
      obtain ⟨other, otherOnDisk, otherwise⟩ :=
        accessDsoMem_of_onDisk onDisk isFound live (serves map dso isFound live)
      rw [ran] at otherwise
      split at otherwise
      · cases otherwise
        exact otherOnDisk
      · cases otherwise
        exact otherOnDisk

/-- A callback that is answered from the disk leaves the dsos as they are there. -/
theorem step_onDisk (onDisk : store.OnDisk disk) (answered : request.Answered disk info store)
    (ran : request.step info store = .ok (answer, next)) : next.OnDisk disk := by
  cases request with
  | findProcInfo ip os elf searched =>
      obtain ⟨⟨⟨status, table⟩, after⟩, find, done⟩ := bind_eq_ok_iff.mp ran
      cases done
      exact findProcInfo_onDisk onDisk answered find
  | accessMem addr write os =>
      cases asks : (Request.accessMem addr write os).consults info with
      | none =>
          rw [store_of_not_consults asks ran]
          exact onDisk
      | some asked =>
          obtain ⟨ip, os'⟩ := asked
          obtain ⟨rfl, rfl, access⟩ : ip = addr ∧ os' = os ∧
            DwBpf.accessMem os store info addr write = _ := accessMem_of_consults asks
          rw [step, access] at ran
          obtain ⟨⟨⟨status, value⟩, after⟩, read, done⟩ := bind_eq_ok_iff.mp ran
          have same : next = after := by
            dsimp only at done
            split at done
            · cases done
              rfl
            · cases done
              rfl
          rw [same]
          refine accessDsoMem_onDisk onDisk (fun map dso isFound live => ?_) read
          exact answered.file _ map.dso dso ⟨_, map, asks, isFound, rfl⟩ live
  | accessReg regnum write =>
      obtain ⟨value, -, done⟩ := bind_eq_ok_iff.mp ran
      cases done
      exact onDisk

theorem steps_onDisk {requests : List Request} {answers : List Answer} (onDisk : store.OnDisk disk)
    (each : EachStep (step info) (Answered disk info) requests store)
    (walked : runAll (step info) requests store = .ok (answers, next)) : next.OnDisk disk :=
  runAll_invariant (fun _ _ _ _ before answered stepped => step_onDisk before answered stepped)
    onDisk each walked

end Request

/-- The search for a map does not depend on what is known of the files. -/
theorem findMap_of_quiet (quiet : store.Quiet next) (ip : U64) :
    findMap next info ip = findMap store info ip := by
  have steer : Maps.steer next ip = Maps.steer store ip := by
    funext ref
    rw [Maps.steer, Maps.steer, quiet.mapObjs]
  have find : ∀ maps, Maps.find next maps ip = Maps.find store maps ip := by
    intro maps
    rw [Maps.find, Maps.find, quiet.maps, quiet.mapObjs, steer]
  unfold findMap
  cases live : store.threads.get? info.thread with
  | none =>
      have gone : next.threads.get? info.thread = none := by
        have same := quiet.threads info.thread
        rw [live] at same
        exact Option.map_eq_none_iff.mp same
      rw [deref, deref, live, gone]
      rfl
  | some thread =>
      obtain ⟨after, afterLive, core, -⟩ := quiet.live live
      simp only [Thread.core, Prod.mk.injEq] at core
      rw [deref_of_get? live, deref_of_get? afterLive, ok_bind, ok_bind, core.2.2.1]
      cases thread.maps with
      | none => rfl
      | some maps =>
          dsimp only
          rw [find, quiet.mapObjs]

/-- The states that a walk over the stack passes through while it is answered from
the disk. -/
def Store.Walked (disk : Disk) (info : UnwindInfo) (store next : Store) : Prop :=
  ∃ requests answers, EachStep (Request.step info) (Request.Answered disk info) requests store ∧
    runAll (Request.step info) requests store = .ok (answers, next)

theorem Store.Walked.onDisk (walked : store.Walked disk info next) (onDisk : store.OnDisk disk) :
    next.OnDisk disk := by
  obtain ⟨requests, answers, each, ran⟩ := walked
  exact Request.steps_onDisk onDisk each ran

theorem Store.Walked.quiet (walked : store.Walked disk info next) : store.Quiet next := by
  obtain ⟨requests, answers, -, ran⟩ := walked
  exact quiet_requests ran

section Requests

variable {request : Request} {requests : List Request}

/-- A request is answered from the disk before and after work that keeps the maps. -/
theorem Request.Answered.quiet (answered : request.Answered disk info store)
    (quiet : store.Quiet next) : request.Answered disk info next where
  file := by
    rintro os ref dso ⟨ip, map, asks, found, isRef⟩ live
    obtain ⟨before, wasLive, core⟩ := quiet.was_dso live
    have named : dso.longName = before.longName := congrArg Prod.fst core
    rw [findMap_of_quiet quiet] at found
    rw [named]
    exact answered.file os ref before ⟨ip, map, asks, found, isRef⟩ wasLive
  hdr := by
    intro ip os elf searched map dso same found live
    obtain ⟨before, wasLive, core⟩ := quiet.was_dso live
    have named : dso.longName = before.longName := congrArg Prod.fst core
    rw [findMap_of_quiet quiet] at found
    rw [named]
    exact answered.hdr ip os elf searched map before same found wasLive

/-- Requests that are answered from the disk at first are so whenever they come. -/
theorem Request.eachStep_answered
    (answered : ∀ request ∈ requests, request.Answered disk info store) :
    EachStep (Request.step info) (Request.Answered disk info) requests store := by
  induction requests generalizing store with
  | nil => trivial
  | cons request requests ih =>
      refine ⟨answered request (List.mem_cons_self ..), ?_⟩
      intro answer next ran
      apply ih
      intro later member
      exact (answered later (List.mem_cons_of_mem _ member)).quiet (quiet_request ran)

/-- A walk over a stack leaves the dsos consistent with the disk. -/
theorem resolveThread_onDisk {st : Option Stacktrace} {uc : UnwindCtx} {created : Bool}
    {unwinder : Unwinder} {result : Resolved} {th : Ref Thread} (onDisk : store.OnDisk disk)
    (answered : ∀ request ∈ unwinder.requests, request.Answered disk ⟨uc, th⟩ store)
    (ran : resolveThread st uc created unwinder store th = .ok (result, next)) :
    next.OnDisk disk := by
  obtain ⟨ready, quiet, dsos, served⟩ := requests_of_resolveThread ran
  have readyOnDisk : ready.OnDisk disk := by
    intro ref dso live
    rw [dsos] at live
    exact onDisk ref dso live
  rcases served with rfl | ⟨answers, served⟩
  · exact readyOnDisk
  · have each := Request.eachStep_answered fun request member =>
      (answered request member).quiet quiet
    exact Request.steps_onDisk readyOnDisk each served

end Requests

/-- What a call asks the operating system and libelf is answered from the disk. -/
def Call.Answered (disk : Disk) (machine : Machine) : Call → Prop
  | .resolveCallchain _ uc _ unwinder => ∀ th looked,
      Machine.findnewThread machine uc.tgid uc.tid = .ok (some th, looked) →
      ∀ request ∈ unwinder.requests, request.Answered disk ⟨uc, th⟩ looked.store
  | _ => True

namespace Machine

variable {machine after : Machine} {plain : Plain} {call : Call} {reply : Reply}

/-- Recording maps and iterating over them leaves the files alone. -/
theorem plain_onDisk {plain' : Plain} (sound : Plain.Sound none plain)
    (accounted : plain.store.Accounted) (onDisk : plain.store.OnDisk disk)
    (silent : ∀ st uc created unwinder, call ≠ .resolveCallchain st uc created unwinder)
    (stepped : Plain.step call plain = .ok (reply, plain')) : plain'.store.OnDisk disk := by
  have kept : ∀ visit ∈ call.visits, ∀ plain tgid tid th middle after,
      plain.store.Accounted ∧ plain.store.OnDisk disk → Plain.Sound none plain →
      Plain.Visited visit plain tgid tid th middle after →
      after.store.Accounted ∧ after.store.OnDisk disk := by
    intro visit member plain tgid tid th middle after before plainSound visited
    refine ⟨visited.accounted before.1, ?_⟩
    cases visit with
    | fault failure => cases visited.pair
    | record event created =>
        exact visited.data_of_record (fun name => Consistent (disk.files name) (disk.hdrs name))
          before.1 (fun _ => consistent_new _ _) before.2
    | resolve st uc created unwinder =>
        cases call with
        | threadMap tgid tid text scratch created' =>
            obtain ⟨event, created, same⟩ := Call.visits_of_records rfl member visited.pair
            cases same
        | resolveCallchain st uc created unwinder => exact absurd rfl (silent _ _ _ _)
        | dlIteratePhdr tgid callback => cases List.mem_singleton.mp member
    | iterate tgid callback =>
        obtain ⟨⟨result, last⟩, iterate, done⟩ := bind_eq_ok_iff.mp visited.worked
        cases done
        rw [store_of_iterateThread iterate]
        intro ref dso live
        rw [visited.outcome.regroups.dsos] at live
        exact before.2 ref dso live
  exact (Plain.step_keeps sound kept ⟨accounted, onDisk⟩ stepped).2

theorem resolve_onDisk {st : Option Stacktrace} {uc : UnwindCtx} {created : Bool}
    {unwinder : Unwinder} (matched : Matches machine plain) (onDisk : machine.store.OnDisk disk)
    (answered : (Call.resolveCallchain st uc created unwinder).Answered disk machine)
    (stepped : Machine.step (.resolveCallchain st uc created unwinder) machine =
      .ok (reply, after)) : after.store.OnDisk disk := by
  obtain ⟨⟨result, last⟩, rest, done⟩ := bind_eq_ok_iff.mp stepped
  cases done
  rw [resolveCallchain, withThread] at rest
  rcases findnewThread_of_matches matched uc.tgid uc.tid with
    ⟨failure, looked, -, -⟩ | ⟨th, middle, plain', looked, -, outcome, matchedMiddle⟩
  · rw [looked] at rest
    cases rest
  · rw [looked, ok_bind] at rest
    obtain ⟨⟨resolved, store⟩, resolve, ended⟩ := bind_eq_ok_iff.mp rest
    cases ended
    have middleOnDisk : middle.store.OnDisk disk := by
      intro ref dso live
      rw [matchedMiddle.1.store, outcome.regroups.dsos, ← matched.1.store] at live
      exact onDisk ref dso live
    exact resolveThread_onDisk middleOnDisk (answered th middle looked) resolve

theorem step_onDisk (matched : Matches machine plain) (accounted : plain.store.Accounted)
    (onDisk : machine.store.OnDisk disk) (answered : call.Answered disk machine)
    (stepped : Machine.step call machine = .ok (reply, after)) :
    ∃ plain', Matches after plain' ∧ plain'.store.Accounted ∧ after.store.OnDisk disk := by
  have agree := agree_step call machine plain matched
  rw [stepped] at agree
  obtain ⟨⟨reply', plain'⟩, plainStepped, -, matchedAfter⟩ := agree.ok_left
  refine ⟨plain', matchedAfter, Plain.step_accounted matched.2 accounted plainStepped, ?_⟩
  by_cases silent : ∀ st uc created unwinder, call ≠ .resolveCallchain st uc created unwinder
  · rw [matched.1.store] at onDisk
    rw [matchedAfter.1.store]
    exact plain_onDisk matched.2 accounted onDisk silent plainStepped
  · simp only [not_forall, not_not] at silent
    obtain ⟨st, uc, created, unwinder, rfl⟩ := silent
    exact resolve_onDisk matched onDisk answered stepped

/-- What a run on the disk knows of the files is so there. -/
theorem onDisk_of_answered {calls : List Call} {replies : List Reply}
    (each : EachStep Machine.step (fun machine call => call.Answered disk machine) calls
      Machine.new)
    (ran : runAll Machine.step calls Machine.new = .ok (replies, machine)) :
    machine.store.OnDisk disk := by
  have kept : ∀ call before reply after,
      (∃ plain, Matches before plain ∧ plain.store.Accounted ∧ before.store.OnDisk disk) →
      call.Answered disk before → Machine.step call before = .ok (reply, after) →
      ∃ plain, Matches after plain ∧ plain.store.Accounted ∧ after.store.OnDisk disk := by
    rintro call before reply after ⟨plain, matched, accounted, onDisk⟩ answered stepped
    exact step_onDisk matched accounted onDisk answered stepped
  have start : Machine.new.store.OnDisk disk := fun _ _ live => nomatch live
  obtain ⟨plain, -, -, onDisk⟩ :=
    runAll_invariant kept ⟨Plain.new, matches_new, accounted_empty, start⟩ each ran
  exact onDisk

/-- Recording maps asks the operating system and libelf for nothing. -/
theorem onDisk_of_run (disk : Disk) {calls : List Call} {replies : List Reply}
    (ran : runAll Machine.step calls Machine.new = .ok (replies, machine))
    (records : ∀ call ∈ calls, call.records = true) : machine.store.OnDisk disk := by
  have answered : ∀ call ∈ calls, ∀ machine, call.Answered disk machine := by
    intro call member machine
    cases call with
    | resolveCallchain st uc created unwinder => cases records _ member
    | threadMap | dlIteratePhdr => trivial
  exact onDisk_of_answered (eachStep_of_forall answered _) ran

end Machine

end DwBpf
