import DwBpf.Event.Accounting

/-! # What the callbacks answer

A callback consults the data of at most one dso, that of the map around an
address (`DwBpf.Request.Consults`). In every state that a run reaches, also
between the requests of one walk, it returns a status exactly when that dso is
open or can be opened and the register or the word of the stack it is asked for
is stored (`DwBpf.runs_report_iff`).
-/

namespace DwBpf

/-- What is so of the data of all dsos under their names, and of those of a new one, is so
of all after one was found. -/
theorem Dsos.Found.data (property : List Char → DsoData → Prop) {store found : Store}
    {name : List Char} {dso : Ref Dso} (isFound : Dsos.Found store name dso found)
    (new : ∀ name, property name .new)
    (all : ∀ ref dso, store.dsos.get? ref = some dso → property dso.longName dso.data) :
    ∀ ref dso, found.dsos.get? ref = some dso → property dso.longName dso.data := by
  intro ref object live
  cases isFound with
  | known =>
      obtain ⟨before, wasLive, rfl⟩ := Heap.get?_modify_eq_some.mp live
      split
      · exact all ref before wasLive
      · exact all ref before wasLive
  | added =>
      rcases Heap.get?_alloc_eq_some.mp live with ⟨-, rfl⟩ | wasLive
      · exact new _
      · exact all ref object wasLive

/-- So it is after a visit that records a map. -/
theorem Plain.Visited.data_of_record (property : List Char → DsoData → Prop) {event : MmapEvent}
    {created : Bool} {machine middle next : Plain} {tgid tid : Pid} {th : Ref Thread}
    (visited : Visited (.record event created) machine tgid tid th middle next)
    (accounted : machine.store.Accounted) (new : ∀ name, property name .new)
    (all : ∀ ref dso, machine.store.dsos.get? ref = some dso → property dso.longName dso.data) :
    ∀ ref dso, next.store.dsos.get? ref = some dso → property dso.longName dso.data := by
  have regroups := visited.outcome.regroups
  obtain ⟨-, thread, live, -⟩ := visited.home
  obtain ⟨dso, found, maps, object, path, recorded⟩ := recorded_of_recordMap
    (accounted.regroups regroups).interned live (visited.sound.linked th thread live) visited.worked
  rw [recorded.dsos]
  apply recorded.interned.data property new
  rw [regroups.dsos]
  exact all

theorem Plain.Visited.dormant {visit : Visit} {machine middle next : Plain} {tgid tid : Pid}
    {th : Ref Thread} (visited : Visited visit machine tgid tid th middle next)
    (accounted : machine.store.Accounted) (dormant : machine.store.Dormant) :
    next.store.Dormant := by
  rcases Visit.quiet_or_record visited.worked with quiet | ⟨event, created, rfl, -⟩
  · apply quiet.dormant
    intro ref dso live
    rw [visited.outcome.regroups.dsos] at live
    exact dormant ref dso live
  · exact visited.data_of_record (fun _ => DsoData.Dormant) accounted
      (fun _ => DsoData.dormant_new) dormant

theorem Plain.step_dormant {call : Call} {machine next : Plain} {reply : Reply}
    (sound : Sound none machine) (accounted : machine.store.Accounted)
    (dormant : machine.store.Dormant) (stepped : Plain.step call machine = .ok (reply, next)) :
    next.store.Accounted ∧ next.store.Dormant := by
  have kept : ∀ visit ∈ call.visits, ∀ plain tgid tid th middle after,
      plain.store.Accounted ∧ plain.store.Dormant → Sound none plain →
      Visited visit plain tgid tid th middle after →
      after.store.Accounted ∧ after.store.Dormant := by
    intro visit member plain tgid tid th middle after before plainSound visited
    exact ⟨visited.accounted before.1, visited.dormant before.1 before.2⟩
  exact step_keeps sound kept ⟨accounted, dormant⟩ stepped

/-- In every state that a run reaches nothing is known of the files that are not open. -/
theorem Machine.dormant_of_run {calls : List Call} {replies : List Reply} {machine : Machine}
    (ran : runAll Machine.step calls Machine.new = .ok (replies, machine)) :
    ∃ plain, Matches machine plain ∧ plain.store.Accounted ∧ plain.store.Dormant := by
  have start : Plain.new.store.Accounted ∧ Plain.new.store.Dormant :=
    ⟨accounted_empty, fun _ _ live => nomatch live⟩
  exact runs_keep matches_new start (fun _ _ _ _ sound before stepped =>
    Plain.step_dormant sound before.1 before.2 stepped) ran

namespace Request

/-- The address whose dso is asked for data, with the answers of the operating
system about the file. -/
def consults (info : UnwindInfo) : Request → Option (U64 × Os)
  | .findProcInfo ip os _ _ => some (ip, os)
  | .accessMem addr write os =>
      if write = true ∨ info.uc.size.toInt ≤ 0 ∨ addr + 8 < addr ∨
        info.uc.snapshots (info.uc.uregs .sp) addr = true then none
      else some (addr, os)
  | .accessReg _ _ => none

/-- The request asks the dso `ref` for data. -/
def Consults (store : Store) (info : UnwindInfo) (request : Request) (os : Os) (ref : Ref Dso) :
    Prop :=
  ∃ ip map, request.consults info = some (ip, os) ∧ findMap store info ip = .ok (some map) ∧
    map.dso = ref

/-- The callback returns a status. If it asks a dso that cannot be opened, the
status is an error, and the dso is known to be unusable afterwards. -/
structure Reports (store : Store) (info : UnwindInfo) (request : Request) : Prop where
  returns : ∃ answer next, request.step info store = .ok (answer, next)
  refuses : ∀ answer next os ref dso, request.step info store = .ok (answer, next) →
    request.Consults store info os ref → store.dsos.get? ref = some dso →
    ¬ dso.data.Openable os →
    answer.1 ≠ 0 ∧ ∃ after, next.dsos.get? ref = some after ∧ after.data.status = .error

/-- The dso that is asked is open or can be opened, the register is one of those
that `archRegId` knows, and a word taken from the snapshot lies in it. -/
structure Served (store : Store) (info : UnwindInfo) (request : Request) : Prop where
  openable : ∀ os ref dso, request.Consults store info os ref →
    store.dsos.get? ref = some dso → dso.data.Openable os
  numbered : ∀ regnum, request = .accessReg regnum false → regnum.toNat ≤ 16
  captured : ∀ addr os, request = .accessMem addr false os → info.uc.Snapshot addr →
    (addr - info.uc.uregs .sp).toNat + 8 ≤ stackSize

end Request

/-- What a walk over the stack of a thread finds. -/
structure Store.Ready (store : Store) (info : UnwindInfo) : Prop where
  accounted : store.Accounted
  dormant : store.Dormant
  mapped : ∃ thread maps object, store.threads.get? info.thread = some thread ∧
    thread.maps = some maps ∧ store.maps.get? maps = some object

section Answers

variable {store next : Store} {info : UnwindInfo} {request : Request} {os : Os} {ref : Ref Dso}
  {dso : Dso} {ip : U64} {map : Map}

theorem Store.Ready.quiet (ready : store.Ready info) (quiet : store.Quiet next) :
    next.Ready info where
  accounted := ready.accounted.quiet quiet
  dormant := quiet.dormant ready.dormant
  mapped := by
    obtain ⟨thread, maps, object, live, has, stored⟩ := ready.mapped
    obtain ⟨after, afterLive, core, -⟩ := quiet.live live
    simp only [Thread.core, Prod.mk.injEq] at core
    exact ⟨after, maps, object, afterLive, core.2.2.1.trans has, by rw [quiet.maps, stored]⟩

/-- The search for a map ends, and the dso of the map is there. -/
theorem Store.Ready.findMap (ready : store.Ready info) (ip : U64) :
    findMap store info ip = .ok none ∨ ∃ map dso, findMap store info ip = .ok (some map) ∧
      store.dsos.get? map.dso = some dso := by
  obtain ⟨thread, maps, object, live, has, stored⟩ := ready.mapped
  unfold DwBpf.findMap Maps.find
  simp only [deref_eq_ok_iff.mpr live, ok_bind, has, deref_eq_ok_iff.mpr stored]
  cases found : object.entries.find? (Maps.steer store ip) with
  | none => exact .inl rfl
  | some entry =>
      obtain ⟨map, mapLive, -⟩ :=
        ready.accounted.entries maps object stored entry (Tree.find?_eq_some found).1
      obtain ⟨dso, dsoLive⟩ := ready.accounted.named entry map mapLive
      simp only [deref_eq_ok_iff.mpr mapLive, ok_bind, pure_eq_ok]
      exact .inr ⟨map, dso, rfl, dsoLive⟩

theorem Store.withData_ok {α : Type} {work : DsoData → Except Fault (α × DsoData)}
    (live : store.dsos.get? ref = some dso) (returns : dso.data.Returns os (work dso.data))
    (openable : dso.data.Openable os) :
    ∃ result next, store.withData ref work = .ok (result, next) := by
  obtain ⟨result, data, ran, -⟩ := returns.ok openable
  unfold withData
  rw [deref_eq_ok_iff.mpr live, ok_bind, ran]
  exact ⟨_, _, rfl⟩

theorem Store.withData_fails {α : Type} {work : DsoData → Except Fault (α × DsoData)}
    (live : store.dsos.get? ref = some dso) (returns : dso.data.Returns os (work dso.data))
    (cannot : ¬ dso.data.Openable os) : FailsInDso (store.withData ref work) := by
  unfold withData
  rw [deref_eq_ok_iff.mpr live, ok_bind]
  exact (returns.fails cannot).bind _

/-- A word that is not in the snapshot is looked for in the dsos. -/
theorem accessMem_of_consults {addr : U64} {write : Bool} {os' : Os}
    (consults : (Request.accessMem addr write os).consults info = some (ip, os')) :
    ip = addr ∧ os' = os ∧ accessMem os store info addr write = (do
      let ((status, value), store) ← accessDsoMem os store info addr
      if status = 0 then return ((0, some value), store)
      else return ((status, some 0), store)) := by
  simp only [Request.consults] at consults
  split at consults
  · cases consults
  · rename_i asks
    cases consults
    rw [not_or, not_or, not_or] at asks
    refine ⟨rfl, rfl, ?_⟩
    rw [accessMem, if_neg (by rw [not_or]; exact ⟨asks.1, asks.2.1⟩), regValue_sp, ok_bind,
      if_neg asks.2.2.1, if_neg asks.2.2.2]

/-- A request that asks a dso that cannot be opened fails. -/
theorem Request.fails_of_consults (dormant : store.Dormant)
    (consults : request.Consults store info os ref) (live : store.dsos.get? ref = some dso)
    (cannot : ¬ dso.data.Openable os) : FailsInDso (request.step info store) := by
  obtain ⟨ip, map, asks, found, rfl⟩ := consults
  have isDormant := dormant _ dso live
  cases request with
  | findProcInfo ip os elf searched =>
      cases asks
      refine FailsInDso.bind ?_ _
      rw [DwBpf.findProcInfo, found, ok_bind]
      exact (Store.withData_fails live (readUnwindSpecEhFrame_returns isDormant) cannot).bind _
  | accessMem addr write os =>
      obtain ⟨rfl, rfl, asked⟩ := accessMem_of_consults asks
      rw [Request.step, asked]
      refine FailsInDso.bind ?_ _
      rw [accessDsoMem, found, ok_bind]
      exact (Store.withData_fails live
        (DsoData.readBytes_returns isDormant _ (by decide)) cannot).bind _
  | accessReg regnum write => cases asks

/-- `find_proc_info` returns where the dso around the address is open or can be opened. -/
theorem findProcInfo_ok (ready : store.Ready info) {elf : ElfAnswers} {searched : Int}
    (openable : ∀ map dso, findMap store info ip = .ok (some map) →
      store.dsos.get? map.dso = some dso → dso.data.Openable os) :
    ∃ answer next, findProcInfo os elf searched store info ip = .ok (answer, next) := by
  unfold findProcInfo
  rcases ready.findMap ip with found | ⟨map, dso, found, live⟩
  · rw [found]
    exact ⟨_, _, rfl⟩
  · have returns : dso.data.Returns os (readUnwindSpecEhFrame os elf dso.data) :=
      readUnwindSpecEhFrame_returns (ready.dormant _ dso live)
    obtain ⟨spec, next, ran⟩ := Store.withData_ok live returns (openable map dso found live)
    simp only [found, ok_bind, ran]
    cases spec with
    | none => exact ⟨_, _, rfl⟩
    | some spec => exact ⟨_, _, rfl⟩

theorem accessDsoMem_ok (ready : store.Ready info) {addr : U64}
    (openable : ∀ map dso, findMap store info addr = .ok (some map) →
      store.dsos.get? map.dso = some dso → dso.data.Openable os) :
    ∃ answer next, accessDsoMem os store info addr = .ok (answer, next) := by
  unfold accessDsoMem
  rcases ready.findMap addr with found | ⟨map, dso, found, live⟩
  · rw [found]
    exact ⟨_, _, rfl⟩
  · have returns : dso.data.Returns os (dso.data.readBytes os (map.mapIp addr) 8) :=
      DsoData.readBytes_returns (ready.dormant _ dso live) _ (by decide)
    obtain ⟨⟨size, bytes⟩, next, ran⟩ :=
      Store.withData_ok live returns (openable map dso found live)
    simp only [found, ok_bind, ran]
    split
    · exact ⟨_, _, rfl⟩
    · exact ⟨_, _, rfl⟩

theorem UnwindCtx.word_ok {uc : UnwindCtx} {offset : Nat} (within : offset + 8 ≤ stackSize) :
    ∃ value, uc.word offset = .ok value := by
  rw [word, if_pos within]
  exact ⟨_, rfl⟩

theorem accessMem_ok (ready : store.Ready info) {addr : U64} {write : Bool}
    (served : (Request.accessMem addr write os).Served store info) :
    ∃ answer next, accessMem os store info addr write = .ok (answer, next) := by
  unfold accessMem
  split
  · exact ⟨_, _, rfl⟩
  · rename_i reads
    rw [regValue_sp, ok_bind]
    split
    · exact ⟨_, _, rfl⟩
    · rename_i fits
      obtain ⟨notWrite, sized⟩ := not_or.mp reads
      obtain rfl := Bool.eq_false_iff.mpr notWrite
      split
      · rename_i snapshot
        obtain ⟨value, read⟩ := UnwindCtx.word_ok
          (served.captured addr os rfl ⟨Int.not_le.mp sized, fits, snapshot⟩)
        rw [read]
        exact ⟨_, _, rfl⟩
      · rename_i outside
        have asks : (Request.accessMem addr false os).consults info = some (addr, os) := by
          rw [Request.consults, if_neg]
          rw [not_or, not_or, not_or]
          exact ⟨notWrite, sized, fits, outside⟩
        obtain ⟨⟨status, value⟩, next, ran⟩ := accessDsoMem_ok ready fun map dso found live =>
          served.openable os map.dso dso ⟨addr, map, asks, found, rfl⟩ live
        simp only [ran, ok_bind]
        split
        · exact ⟨_, _, rfl⟩
        · exact ⟨_, _, rfl⟩

namespace Request

/-- A request that is served returns. -/
theorem returns_of_served (ready : store.Ready info) (served : request.Served store info) :
    ∃ answer next, request.step info store = .ok (answer, next) := by
  cases request with
  | findProcInfo ip os elf searched =>
      obtain ⟨⟨status, table⟩, next, ran⟩ := findProcInfo_ok ready fun map dso found live =>
        served.openable os map.dso dso ⟨ip, map, rfl, found, rfl⟩ live
      rw [step, ran]
      exact ⟨_, _, rfl⟩
  | accessMem addr write os => exact accessMem_ok ready served
  | accessReg regnum write =>
      cases write with
      | true => exact ⟨_, _, rfl⟩
      | false =>
          obtain ⟨value, read⟩ :=
            regValue_archRegId_of_le info.uc.uregs (served.numbered regnum rfl)
          rw [step, DwBpf.accessReg, if_neg nofun, read]
          exact ⟨_, _, rfl⟩

/-- One that returns was served: each way not to be served ends in an assertion. -/
theorem served_of_returns (ready : store.Ready info) {answer : Answer}
    (ran : request.step info store = .ok (answer, next)) : request.Served store info where
  openable := by
    intro os ref dso consults live
    by_contra cannot
    obtain ⟨failed, failure, -⟩ := fails_of_consults ready.dormant consults live cannot
    cases ran.symm.trans failure
  numbered := by
    intro regnum same
    subst same
    by_contra other
    rw [step, DwBpf.accessReg, if_neg nofun, regValue_archRegId_of_lt _ (by omega)] at ran
    cases ran
  captured := by
    rintro addr os same ⟨sized, fits, snapshot⟩
    subst same
    by_contra beyond
    rw [step, DwBpf.accessMem, if_neg (UnwindCtx.reads_of_sized sized), regValue_sp, ok_bind,
      if_neg fits, if_pos snapshot, UnwindCtx.word, if_neg beyond] at ran
    cases ran

theorem reports_iff (ready : store.Ready info) :
    request.Reports store info ↔ request.Served store info := by
  constructor
  · rintro ⟨⟨answer, next, ran⟩, -⟩
    exact served_of_returns ready ran
  · intro served
    refine ⟨returns_of_served ready served, ?_⟩
    intro answer next os ref dso _ consults live cannot
    exact absurd (served.openable os ref dso consults live) cannot

end Request

end Answers

/-- In every state that a run reaches, and after any requests on a sample of a
thread there, the walk finds what it needs. -/
theorem Machine.ready_of_run {calls : List Call} {replies : List Reply} {machine : Machine}
    (ran : runAll Machine.step calls Machine.new = .ok (replies, machine)) {th : Ref Thread}
    {thread : Thread} (held : machine.Holds th thread) {uc : UnwindCtx} {requests : List Request}
    {answers : List Answer} {store : Store}
    (walked : runAll (Request.step ⟨uc, th⟩) requests machine.store = .ok (answers, store)) :
    store.Ready ⟨uc, th⟩ := by
  obtain ⟨plain, matched, accounted, dormant⟩ := Machine.dormant_of_run ran
  have live := (Machine.holds_iff matched).mp held
  obtain ⟨maps, object, has, stored⟩ := matched.2.valid.mapped th thread live
  have ready : plain.store.Ready ⟨uc, th⟩ :=
    ⟨accounted, dormant, thread, maps, object, live, has, stored⟩
  rw [matched.1.store] at walked
  exact ready.quiet (quiet_requests walked)

/-- In every state that a run reaches, and after any requests on a sample of a
thread there, a callback returns a status, with an error for a dso that cannot
be opened, exactly when it is served. -/
theorem runs_report_iff {calls : List Call} {replies : List Reply} {machine : Machine}
    (ran : runAll Machine.step calls Machine.new = .ok (replies, machine)) {th : Ref Thread}
    {thread : Thread} (held : machine.Holds th thread) (uc : UnwindCtx) {requests : List Request}
    {answers : List Answer} {store : Store}
    (walked : runAll (Request.step ⟨uc, th⟩) requests machine.store = .ok (answers, store))
    (request : Request) : request.Reports store ⟨uc, th⟩ ↔ request.Served store ⟨uc, th⟩ :=
  Request.reports_iff (Machine.ready_of_run ran held walked)

/-- A call that reads the line of the vdso of a process. -/
def Call.mapVdso (tgid tid : Pid) : Call :=
  .threadMap tgid tid
    (some "7ffd5a1f2000-7ffd5a1f4000 r-xp 00000000 00:00 0                          [vdso]\n".toList)
    ⟨⟨0, 0, 0, 0, 0, 0, 0, 0, 0, 0, 0, []⟩, fun _ => '\x00'⟩ true

/-- The answers for a name that is not the name of a file. -/
def Os.absent : Os where
  regular := false
  opened := none
  errno := 2
  fstat := none
  pread := fun _ _ => .failed
  others := fun _ => []

/-- A sample without a stack. -/
def UnwindCtx.bare (tgid tid : Pid) : UnwindCtx :=
  ⟨0, tid, tgid, fun _ => 0, fun _ => 0, 0, fun _ => 0⟩

/-- The answers for a file of no bytes that can be opened. -/
def Os.empty : Os where
  regular := true
  opened := some 3
  errno := 0
  fstat := some 0
  pread := fun _ _ => .failed
  others := fun _ => []

/-- The request for the unwind information of an instruction of `/bin/ls` asks its dso,
and opens the file. -/
theorem runs_report_mapLs :
    ∃ replies machine thread ref, runAll Machine.step [.mapLs 1 1] Machine.new =
      .ok (replies, machine) ∧ machine.Holds ⟨0⟩ thread ∧
      (Request.findProcInfo 0x400123 .empty ⟨0, 0⟩ 0).Consults machine.store ⟨.bare 1 1, ⟨0⟩⟩
        .empty ref ∧
      (Request.findProcInfo 0x400123 .empty ⟨0, 0⟩ 0).Reports machine.store ⟨.bare 1 1, ⟨0⟩⟩ := by
  have run : ∃ replies machine thread ref, runAll Machine.step [.mapLs 1 1] Machine.new =
      .ok (replies, machine) ∧ machine.Holds ⟨0⟩ thread ∧
      (Request.findProcInfo 0x400123 .empty ⟨0, 0⟩ 0).Consults machine.store ⟨.bare 1 1, ⟨0⟩⟩
        .empty ref := by
    refine ⟨_, _, _, _, rfl, ⟨⟨1, ?_⟩, rfl⟩, 0x400123, _, rfl, rfl, rfl⟩
    decide
  obtain ⟨replies, machine, thread, ref, ran, held, consults⟩ := run
  refine ⟨replies, machine, thread, ref, ran, held, consults, ?_⟩
  have walked : runAll (Request.step ⟨.bare 1 1, ⟨0⟩⟩) [] machine.store =
      .ok ([], machine.store) := rfl
  refine (runs_report_iff ran held (.bare 1 1) walked _).mpr ⟨?_, nofun, nofun⟩
  rintro os ref dso ⟨ip, map, asks, -⟩ -
  cases asks
  exact .inr ⟨rfl, nofun⟩

set_option maxRecDepth 2000 in
/-- The unwinder is asked about an address in the vdso, or for the register after
the instruction pointer, and an assertion fails. -/
theorem vdso_fails_assertion :
    ∃ replies machine thread, runAll Machine.step [.mapVdso 1 1] Machine.new =
      .ok (replies, machine) ∧ machine.Holds ⟨0⟩ thread ∧
      Request.step ⟨.bare 1 1, ⟨0⟩⟩ (.findProcInfo 0x7ffd5a1f2000 .absent ⟨0, 0⟩ 0)
        machine.store = .error (.assertion .regularFile) ∧
      Request.step ⟨.bare 1 1, ⟨0⟩⟩ (.accessReg 17 false) machine.store =
        .error (.assertion .registerIndex) ∧
      ¬ (Request.findProcInfo 0x7ffd5a1f2000 .absent ⟨0, 0⟩ 0).Reports machine.store
        ⟨.bare 1 1, ⟨0⟩⟩ := by
  have run : ∃ replies machine thread, runAll Machine.step [.mapVdso 1 1] Machine.new =
      .ok (replies, machine) ∧ machine.Holds ⟨0⟩ thread ∧
      Request.step ⟨.bare 1 1, ⟨0⟩⟩ (.findProcInfo 0x7ffd5a1f2000 .absent ⟨0, 0⟩ 0)
        machine.store = .error (.assertion .regularFile) := by
    refine ⟨_, _, _, rfl, ⟨⟨1, ?_⟩, rfl⟩, rfl⟩
    decide
  obtain ⟨replies, machine, thread, ran, held, failed⟩ := run
  refine ⟨replies, machine, thread, ran, held, failed, rfl, ?_⟩
  rintro ⟨⟨answer, next, returned⟩, -⟩
  cases failed.symm.trans returned

end DwBpf
