import DwBpf.Event.Visit

/-! # The assertions of the thread table

The assertions of `machine.c` fail in the lookup of a thread only
(`DwBpf.Visit.avoids_work`), and there only where a thread would have to leave
maps that hold ranges for the maps of another group.
-/

namespace DwBpf

/-- The file of the assertion that failed. -/
def Fault.file? : Fault → Option SourceFile
  | .assertion failed => some failed.file
  | _ => none

/-- A failed assertion of `machine.c`. -/
abbrev InMachine (failure : Fault) : Prop := failure.file? = some .machine

section Work

variable {store : Store} {th : Ref Thread}

theorem avoids_deref {α : Type} (heap : Heap α) (ref : Ref α) :
    Avoids InMachine (deref heap ref) := by
  unfold deref
  split
  · exact avoids_ok _
  · exact avoids_error nofun

theorem Dso.avoids_get (dso : Ref Dso) : Avoids InMachine (Dso.get store dso) :=
  (avoids_deref _ _).bind fun _ => avoids_ok _

theorem Dso.avoids_put (dso : Ref Dso) : Avoids InMachine (Dso.put store dso) :=
  (avoids_deref _ _).bind fun _ => avoids_ok _

theorem Map.avoids_put (map : Ref Map) : Avoids InMachine (Map.put store map) := by
  refine (avoids_deref _ _).bind fun _ => avoids_ite ?_ (avoids_ok _)
  refine (avoids_deref _ _).bind fun object => avoids_ite (avoids_error nofun) ?_
  exact (Dso.avoids_put _).bind fun _ => avoids_ok _

theorem Maps.avoids_purge (maps : Ref Maps) (entries : List (Ref Map)) :
    Avoids InMachine (Maps.purge maps entries store) := by
  induction entries generalizing store with
  | nil => exact avoids_ok _
  | cons pos rest ih => exact (Map.avoids_put pos).bind fun _ => ih

theorem Maps.avoids_put (maps : Option (Ref Maps)) : Avoids InMachine (Maps.put store maps) := by
  cases maps with
  | none => exact avoids_ok _
  | some maps =>
      refine (avoids_deref _ _).bind fun _ => avoids_ite ?_ (avoids_ok _)
      exact (avoids_deref _ _).bind fun _ => (Maps.avoids_purge _ _).bind fun _ => avoids_ok _

theorem Thread.avoids_put (th : Ref Thread) : Avoids InMachine (Thread.put store th) := by
  refine (avoids_deref _ _).bind fun thread => avoids_ite ?_ (avoids_ok _)
  cases thread.node with
  | clear => exact avoids_error nofun
  | tree => exact avoids_error nofun
  | dead bucket =>
      refine (avoids_deref _ _).bind fun _ => avoids_ite (avoids_error nofun) ?_
      exact (Maps.avoids_put _).bind fun _ => avoids_ok _

theorem Dso.avoids_findlink (dso : Option (Ref Dso)) (name : List Char) :
    Avoids InMachine (Dso.findlinkByLongname store dso name) := by
  unfold Dso.findlinkByLongname
  split
  · exact (avoids_deref _ _).bind fun _ => avoids_ok _
  · split
    · exact avoids_ok _
    · exact avoids_ok _

theorem Dsos.avoids_addnew (name : List Char) : Avoids InMachine (Dsos.addnew store name) := by
  have added : ∀ {store dso}, Avoids InMachine (Dsos.add store dso) := fun {store dso} =>
    (avoids_deref _ _).bind fun _ => (Dso.avoids_findlink _ _).bind fun _ => Dso.avoids_get dso
  exact added.bind fun _ => (Dso.avoids_put _).bind fun _ => avoids_ok _

theorem Dsos.avoids_findnew (name : List Char) : Avoids InMachine (Dsos.findnew store name) := by
  have sought : Avoids InMachine (Dsos.find store name false) :=
    (Dso.avoids_findlink none name).bind fun _ => avoids_ok _
  refine sought.bind fun found => ?_
  cases found with
  | some dso => exact (Dso.avoids_get dso).bind fun _ => avoids_ok _
  | none =>
      exact (Dsos.avoids_addnew name).bind fun _ => (Dso.avoids_get _).bind fun _ => avoids_ok _

theorem Map.avoids_new (event : MmapEvent) : Avoids InMachine (Map.new store event) :=
  (Dsos.avoids_findnew _).bind fun _ => (Dso.avoids_get _).bind fun _ =>
    (Dso.avoids_put _).bind fun _ => avoids_ok _

theorem Thread.avoids_prepareAccess (th : Ref Thread) (created : Bool) :
    Avoids InMachine (Thread.prepareAccess store th created) :=
  (avoids_deref _ _).bind fun _ => avoids_ite (avoids_ok _) (avoids_ok _)

theorem Maps.avoids_insert (maps : Ref Maps) (map : Ref Map) :
    Avoids InMachine (Maps.insert store maps map) := by
  refine (avoids_deref _ _).bind fun _ => (avoids_deref _ _).bind fun _ => ?_
  split
  · exact avoids_error nofun
  · exact (avoids_deref _ _).bind fun _ => avoids_ok _

theorem Thread.avoids_insertMap (th : Ref Thread) (map : Ref Map) (created : Bool) :
    Avoids InMachine (Thread.insertMap store th map created) := by
  refine (Thread.avoids_prepareAccess th created).bind fun _ => avoids_ite ?_ (avoids_ok _)
  refine (avoids_deref _ _).bind fun thread => ?_
  cases thread.maps with
  | none => exact avoids_error nofun
  | some maps => exact (Maps.avoids_insert maps map).bind fun _ => avoids_ok _

theorem avoids_recordMap (event : MmapEvent) (created : Bool) :
    Avoids InMachine (recordMap event created store th) := by
  refine (Map.avoids_new event).bind fun _ => (Thread.avoids_insertMap _ _ _).bind fun _ =>
    avoids_ite ?_ (avoids_error nofun)
  exact (Thread.avoids_put _).bind fun _ => (Map.avoids_put _).bind fun _ => avoids_ok _

theorem avoids_tryToOpenDso (os : Os) (data : DsoData) :
    Avoids InMachine (tryToOpenDso os data) := by
  have opening : Avoids InMachine (openDso os) := by
    unfold openDso doOpen
    refine avoids_ite ?_ (avoids_error nofun)
    split
    · exact avoids_ok _
    · exact avoids_error nofun
  unfold tryToOpenDso
  split
  · exact avoids_ok _
  · exact opening.bind fun _ => avoids_ok _

theorem DsoCache.avoids_read (os : Os) (turn : Nat) (data : DsoData) (offset size : U64) :
    Avoids InMachine (DsoCache.read os turn data offset size) := by
  refine (avoids_tryToOpenDso _ _).bind fun _ => ?_
  dsimp only
  split
  · exact avoids_ok _
  · split
    · exact avoids_ok _
    · exact avoids_ite (avoids_ok _) (avoids_ok _)

/-- The loop is left by one of its returns or by an assertion of `dso.c`. -/
theorem avoids_cachedRead (os : Os) (turn : Nat) (data : DsoData) (offset : U64) (size r : Nat)
    (written : List Byte) : Avoids InMachine (cachedRead os turn data offset size r written) := by
  fun_induction cachedRead os turn data offset size r written with
  | case1 turn data offset size r written failure failed =>
      refine avoids_error ?_
      unfold dsoCacheRead at failed
      split at failed
      · cases failed
      · exact DsoCache.avoids_read _ _ _ _ _ failure failed
  | case2 => exact avoids_ok _
  | case3 => exact avoids_ok _
  | case4 =>
      refine avoids_error ?_
      intro inMachine
      cases inMachine
  | case5 => exact avoids_ok _
  | case6 turn data offset size r written ret bytes next ran _ _ _ _ ih => exact ih

theorem DsoData.avoids_readBytes (os : Os) (offset : U64) (size : Nat) (data : DsoData) :
    Avoids InMachine (DsoData.readBytes os offset size data) := by
  refine Avoids.bind (avoids_ite (avoids_ok _) ?_) fun _ => avoids_ok _
  refine Avoids.bind ?_ fun _ => ?_
  · unfold dataFileSize
    refine avoids_ite (avoids_ok _) (avoids_ite (avoids_ok _) ?_)
    refine (avoids_tryToOpenDso _ _).bind fun _ => avoids_ite (avoids_ok _) ?_
    cases os.fstat with
    | none => exact avoids_ok _
    | some size => exact avoids_ok _
  · dsimp only
    refine avoids_ite (avoids_ok _) (avoids_ite (avoids_ok _) (avoids_ite (avoids_ok _) ?_))
    exact avoids_cachedRead _ _ _ _ _ _ _

theorem avoids_withData {α : Type} {dso : Ref Dso} {work : DsoData → Except Fault (α × DsoData)}
    (avoids : ∀ data, Avoids InMachine (work data)) : Avoids InMachine (store.withData dso work) :=
  (avoids_deref _ _).bind fun _ => (avoids _).bind fun _ => avoids_ok _

theorem avoids_findMap (info : UnwindInfo) (ip : U64) :
    Avoids InMachine (findMap store info ip) := by
  refine (avoids_deref _ _).bind fun thread => ?_
  cases thread.maps with
  | none => exact avoids_error nofun
  | some maps =>
      refine Avoids.bind ?_ fun found => ?_
      · refine (avoids_deref _ _).bind fun _ => ?_
        split
        · exact avoids_ok _
        · exact (avoids_deref _ _).bind fun _ => avoids_ok _
      · cases found with
        | none => exact avoids_ok _
        | some ref => exact (avoids_deref _ _).bind fun _ => avoids_ok _

theorem avoids_regValue (regs : PtRegs) (idx : BitVec 32) :
    Avoids InMachine (regValue regs idx) := by
  unfold regValue
  split
  · exact avoids_error nofun
  · split
    · exact avoids_error nofun
    · exact avoids_ok _

theorem avoids_accessMem (os : Os) (info : UnwindInfo) (addr : U64) (write : Bool) :
    Avoids InMachine (accessMem os store info addr write) := by
  refine avoids_ite (avoids_ok _) ((avoids_regValue _ _).bind fun _ =>
    avoids_ite (avoids_ok _) (avoids_ite ?_ ?_))
  · refine Avoids.bind (avoids_ite (avoids_ok _) (avoids_error nofun)) fun _ => avoids_ok _
  · refine Avoids.bind ?_ fun _ => avoids_ite (avoids_ok _) (avoids_ok _)
    refine (avoids_findMap _ _).bind fun found => ?_
    cases found with
    | none => exact avoids_ok _
    | some map =>
        exact (avoids_withData (DsoData.avoids_readBytes os _ _)).bind fun _ =>
          avoids_ite (avoids_ok _) (avoids_ok _)

theorem avoids_readUnwindSpecEhFrame (os : Os) (elf : ElfAnswers) (data : DsoData) :
    Avoids InMachine (readUnwindSpecEhFrame os elf data) := by
  refine Avoids.bind ?_ fun found => ?_
  · refine avoids_ite (avoids_ok _) (Avoids.bind ?_ fun _ => avoids_ite (avoids_ok _) (avoids_ok _))
    exact avoids_ite (avoids_ok _) ((avoids_tryToOpenDso _ _).bind fun _ => avoids_ok _)
  · obtain ⟨offset, data⟩ := found
    cases offset with
    | none => exact avoids_ok _
    | some offset =>
        refine avoids_ite (avoids_ok _) ?_
        exact (DsoData.avoids_readBytes os _ _ _).bind fun _ =>
          avoids_ite (avoids_ok _) (avoids_ok _)

theorem Request.avoids_step (info : UnwindInfo) (request : Request) :
    Avoids InMachine (request.step info store) := by
  cases request with
  | findProcInfo ip os elf searched =>
      refine Avoids.bind ?_ fun _ => avoids_ok _
      refine (avoids_findMap _ _).bind fun found => ?_
      cases found with
      | none => exact avoids_ok _
      | some map =>
          refine (avoids_withData (avoids_readUnwindSpecEhFrame os elf)).bind fun result => ?_
          obtain ⟨spec, after⟩ := result
          cases spec with
          | none => exact avoids_ok _
          | some spec => exact avoids_ok _
  | accessMem addr write os => exact avoids_accessMem os info addr write
  | accessReg regnum write =>
      refine Avoids.bind (avoids_ite (avoids_ok _) ?_) fun _ => avoids_ok _
      exact (avoids_regValue _ _).bind fun _ => avoids_ok _

theorem avoids_requests (info : UnwindInfo) (requests : List Request) :
    Avoids InMachine (runAll (Request.step info) requests store) := by
  induction requests generalizing store with
  | nil => exact avoids_ok _
  | cons request requests ih =>
      exact (Request.avoids_step info request).bind fun _ => ih.bind fun _ => avoids_ok _

theorem avoids_writeIp (ips : List U64) (index : Nat) (ip : U64) :
    Avoids InMachine (writeIp ips index ip) :=
  avoids_ite (avoids_ok _) (avoids_error nofun)

theorem avoids_stepFrames (depth : Int) (frames : List (U64 × Bool)) (index : Nat)
    (ips : List U64) : Avoids InMachine (stepFrames depth frames index ips) := by
  induction frames generalizing index ips with
  | nil => exact avoids_ok _
  | cons frame frames ih =>
      exact avoids_ite ((avoids_writeIp _ _ _).bind fun _ => ih _ _) (avoids_ok _)

theorem avoids_getEntries (unwinder : Unwinder) (info : UnwindInfo) (st : Option Stacktrace) :
    Avoids InMachine (getEntries unwinder store info st) := by
  unfold getEntries
  split
  · exact avoids_ok _
  · split
    · exact avoids_ok _
    · refine avoids_ite (avoids_ok _) (Avoids.bind ?_ fun _ => avoids_ok _)
      refine (avoids_regValue _ _).bind fun _ => (avoids_writeIp _ _ _).bind fun _ =>
        (avoids_deref _ _).bind fun _ => avoids_ite ?_ (avoids_ok _)
      refine (avoids_requests _ _).bind fun _ => avoids_ite ?_ (avoids_ok _)
      exact (avoids_stepFrames _ _ _ _).bind fun _ => avoids_ok _

theorem avoids_resolveThread (st : Option Stacktrace) (uc : UnwindCtx) (created : Bool)
    (unwinder : Unwinder) : Avoids InMachine (resolveThread st uc created unwinder store th) := by
  refine (Thread.avoids_prepareAccess th created).bind fun _ => Avoids.bind ?_ fun _ =>
    Avoids.bind ?_ fun _ => avoids_ok _
  · exact (avoids_deref _ _).bind fun _ => avoids_ite (avoids_ok _) (avoids_ok _)
  · refine (avoids_deref _ _).bind fun thread => avoids_ite ?_ (avoids_ok _)
    cases thread.maps with
    | none => exact avoids_error nofun
    | some maps => exact (avoids_deref _ _).bind fun _ => avoids_getEntries _ _ _

theorem avoids_iteratePhdr (callback : Nat → PhdrInfo → Int) (entries : List (Ref Map))
    (turn : Nat) : Avoids InMachine (iteratePhdr callback store entries turn) := by
  induction entries generalizing turn with
  | nil => exact avoids_ok _
  | cons pos rest ih =>
      refine (avoids_deref _ _).bind fun _ => (avoids_deref _ _).bind fun _ =>
        avoids_ite (avoids_ok _) ?_
      exact (ih _).bind fun _ => avoids_ok _

/-- What a visit does with its thread fails no assertion of `machine.c`. -/
theorem Visit.avoids_work {visit : Visit} {tgid tid : Pid}
    (looks : visit.pair? = some (tgid, tid)) : Avoids InMachine (visit.work store th) := by
  cases visit with
  | fault failure => cases looks
  | record event created => exact avoids_recordMap event created
  | resolve st uc created unwinder =>
      exact (avoids_resolveThread st uc created unwinder).bind fun _ => avoids_ok _
  | iterate tgid callback =>
      refine Avoids.bind ((avoids_deref _ _).bind fun thread => ?_) fun _ => avoids_ok _
      cases thread.maps with
      | none => exact avoids_error nofun
      | some maps =>
          exact (avoids_deref _ _).bind fun _ =>
            (avoids_iteratePhdr _ _ _).bind fun _ => avoids_ok _

end Work

/-- A thread that would move to the group `tgid` may leave its maps: they hold no
ranges, or they are the maps of the leader it moves to. -/
def Store.MayLeave (store : Store) (tgid tid : Pid) : Prop :=
  tid ≠ tgid → ∀ th thread maps object, store.threads.get? th = some thread → thread.tid = tid →
    thread.tgid ≠ tgid → thread.maps = some maps → store.maps.get? maps = some object →
    object.entries.toList = [] ∨
      ∃ leader lead, store.threads.get? leader = some lead ∧ lead.tid = tgid ∧
        lead.maps = some maps

namespace Plain

variable {machine : Plain} {tgid tid : Pid} {th : Ref Thread} {failure : Fault}

theorem mayLeave_of_home (sound : Sound none machine) (home : Home machine tgid tid th) :
    machine.store.MayLeave tgid tid := by
  obtain ⟨found, thread, live, group⟩ := home
  intro _ other object maps _ otherLive own moves _ _
  have inTable := sound.listed other object otherLive
  rw [own, found] at inTable
  cases inTable
  cases live.symm.trans otherLive
  exact absurd group moves

/-- Maps that hold ranges and that a thread has to leave keep it from moving. -/
theorem Leaves.not_mayLeave {leader : Ref Thread} {object : Thread} {old new : Ref Maps}
    {left : Maps} (leaves : Leaves machine tgid tid th leader object old new left)
    (sound : Sound none machine) (occupied : left.entries.toList ≠ []) :
    ¬ machine.store.MayLeave tgid tid := by
  intro mayLeave
  obtain ⟨thread, moves, has⟩ := leaves.moves
  obtain ⟨stored, live, own⟩ := sound.tabled tid th moves.found
  obtain rfl : stored = thread := Option.some.inj (live.symm.trans moves.live)
  rcases mayLeave moves.member th stored old left live own moves.moves has leaves.stored with
    empty | ⟨leader', lead, leads, leaderOwn, shares⟩
  · exact occupied empty
  · have led := sound.listed leader' lead leads
    rw [leaderOwn] at led
    have found := moves.led
    have foundLive := moves.leads
    rw [ensure_of_some led] at found foundLive
    cases led.symm.trans found
    cases leads.symm.trans foundLive
    exact leaves.differs (Option.some.inj (shares.symm.trans leaves.shares))

theorem Outcome.not_inMachine (outcome : Outcome machine tgid tid (.error failure))
    (sound : Sound none machine) (mayLeave : machine.store.MayLeave tgid tid) :
    ¬ InMachine failure := by
  cases outcome with
  | leavesWrapped leaves empty wrapped => nofun
  | entersWrapped enters wrapped => nofun
  | broken leaves occupied => exact absurd mayLeave (leaves.not_mayLeave sound occupied)

/-- A call fails none of the assertions when its first lookup may leave. -/
theorem step_avoids {call : Call} (sound : Sound none machine)
    (first : call.looks = true → machine.store.MayLeave call.pair.1 call.pair.2) :
    Avoids InMachine (Plain.step call machine) := by
  intro failure failed
  obtain ⟨visit, member, plain, plainSound, meets, visitFailed⟩ :=
    step_error (fun plain tgid tid => plain.store.MayLeave tgid tid)
      (fun _ _ _ _ sound home => mayLeave_of_home sound home) sound first failed
  rcases visit_error plainSound visitFailed with
    rfl | ⟨tgid, tid, looks, outcome | ⟨th, middle, -, -, -, worked⟩⟩
  · rw [Call.fault_of_mem member]
    nofun
  · exact outcome.not_inMachine plainSound (meets tgid tid looks)
  · exact Visit.avoids_work looks failure worked

end Plain

/-- In every run whose calls look up threads that may leave their maps, no
assertion of `machine.c` fails. -/
theorem runs_avoid_machine_assertions (calls : List Call)
    (each : EachStep Machine.step (fun machine call =>
      call.looks = true → machine.store.MayLeave call.pair.1 call.pair.2) calls Machine.new) :
    ∀ failed, runAll Machine.step calls Machine.new = .error (.assertion failed) →
      failed.file ≠ .machine := by
  intro failed ran same
  obtain ⟨call, plain, sound, meets, stepFailed⟩ := Machine.runs_error
    (fun store call => call.looks = true → store.MayLeave call.pair.1 call.pair.2) each ran
  exact Plain.step_avoids sound meets _ stepFailed (congrArg some same)

theorem runs_avoid_machine_assertions_leaders :
    EachStep Machine.step (fun machine call =>
      call.looks = true → machine.store.MayLeave call.pair.1 call.pair.2)
        [.mapLs 1 1, .sample 5 5] Machine.new ∧
      ∀ failed, runAll Machine.step [.mapLs 1 1, .sample 5 5] Machine.new =
        .error (.assertion failed) → failed.file ≠ .machine := by
  have each : EachStep Machine.step (fun machine call =>
      call.looks = true → machine.store.MayLeave call.pair.1 call.pair.2)
        [.mapLs 1 1, .sample 5 5] Machine.new :=
    ⟨fun _ other => absurd rfl other, fun _ _ _ =>
      ⟨fun _ other => absurd rfl other, fun _ _ _ => trivial⟩⟩
  exact ⟨each, runs_avoid_machine_assertions _ each⟩

/-- Once the maps of thread 1 are recorded, a sample of thread 1 in another
process aborts the library. -/
theorem reusedTid_fails_assertion :
    ∃ failed, runAll Machine.step [.mapLs 1 1, .sample 5 1] Machine.new =
      .error (.assertion failed) ∧ failed.file = .machine :=
  ⟨.brokenMaps, rfl, rfl⟩

end DwBpf
