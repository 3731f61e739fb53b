import DwBpf.Event.Interface
import DwBpf.Machine.Sharing
import DwBpf.Machine.Simulation
import DwBpf.Unwind.Reading

/-! # What the work on a thread leaves alone

Once a call has found its thread, it changes neither which threads there are,
nor their groups, nor the maps they share or how these are counted. Such changes
of the objects are `DwBpf.Store.Steady`; the invariant of threads and maps
survives them (`DwBpf.Plain.Sound.steady`).
-/

namespace DwBpf

/-- What the table and the maps of a machine depend on in a thread. -/
def Thread.core (thread : Thread) : Pid × Pid × Option (Ref Maps) × ThreadNode :=
  (thread.tgid, thread.tid, thread.maps, thread.node)

/-- What names and counts a dso. -/
def Dso.core (dso : Dso) : List Char × List Char × U32 := (dso.longName, dso.shortName, dso.refcnt)

/-- Nothing is known of the files that are not open. -/
def Store.Dormant (store : Store) : Prop :=
  ∀ ref dso, store.dsos.get? ref = some dso → dso.data.Dormant

/-- A change to the names of threads, their address spaces and the data of dsos
only, as the work on a sample makes it. -/
structure Store.Quiet (store next : Store) : Prop where
  bound : next.threads.next = store.threads.next
  threads : ∀ ref, (next.threads.get? ref).map (fun thread => (thread.core, thread.refcnt)) =
    (store.threads.get? ref).map fun thread => (thread.core, thread.refcnt)
  maps : next.maps = store.maps
  mapObjs : next.mapObjs = store.mapObjs
  dsosBound : next.dsos.next = store.dsos.next
  dsos : ∀ ref, (next.dsos.get? ref).map Dso.core = (store.dsos.get? ref).map Dso.core
  dsosHead : next.dsosHead = store.dsosHead
  dsosRoot : next.dsosRoot = store.dsosRoot
  dead : next.dead = store.dead
  dormant : store.Dormant → next.Dormant

/-- A change that keeps the threads with their groups and maps, and the counts of
the maps. -/
structure Store.Steady (store next : Store) : Prop where
  bound : next.threads.next = store.threads.next
  threads : ∀ ref,
    (next.threads.get? ref).map Thread.core = (store.threads.get? ref).map Thread.core
  maps : ∀ ref, (next.maps.get? ref).map Maps.refcnt = (store.maps.get? ref).map Maps.refcnt

namespace Store

variable {store next last : Store} {th : Ref Thread}

namespace Quiet

theorem refl (store : Store) : store.Quiet store :=
  ⟨rfl, fun _ => rfl, rfl, rfl, rfl, fun _ => rfl, rfl, rfl, rfl, id⟩

theorem trans (first : store.Quiet next) (second : next.Quiet last) : store.Quiet last where
  bound := second.bound.trans first.bound
  threads := fun ref => (second.threads ref).trans (first.threads ref)
  maps := second.maps.trans first.maps
  mapObjs := second.mapObjs.trans first.mapObjs
  dsosBound := second.dsosBound.trans first.dsosBound
  dsos := fun ref => (second.dsos ref).trans (first.dsos ref)
  dsosHead := second.dsosHead.trans first.dsosHead
  dsosRoot := second.dsosRoot.trans first.dsosRoot
  dead := second.dead.trans first.dead
  dormant := second.dormant ∘ first.dormant

/-- A live thread stays, with its core and its counter. -/
theorem live (quiet : store.Quiet next) {ref : Ref Thread} {thread : Thread}
    (isLive : store.threads.get? ref = some thread) :
    ∃ after, next.threads.get? ref = some after ∧ after.core = thread.core ∧
      after.refcnt = thread.refcnt := by
  have same := quiet.threads ref
  rw [isLive, Option.map_some, Option.map_eq_some_iff] at same
  obtain ⟨after, afterLive, equal⟩ := same
  exact ⟨after, afterLive, congrArg Prod.fst equal, congrArg Prod.snd equal⟩

theorem steady (quiet : store.Quiet next) : store.Steady next where
  bound := quiet.bound
  threads := by
    intro ref
    have same := congrArg (Option.map Prod.fst) (quiet.threads ref)
    simpa only [Option.map_map, Function.comp_def] using same
  maps := by
    intro ref
    rw [quiet.maps]

end Quiet

/-- A change of a thread that leaves its group, its maps and its counter is quiet. -/
theorem quiet_modifyThread {change : Thread → Thread}
    (core : ∀ thread, (change thread).core = thread.core)
    (refcnt : ∀ thread, (change thread).refcnt = thread.refcnt) :
    store.Quiet (store.modifyThread th change) := by
  refine ⟨rfl, fun ref => ?_, rfl, rfl, rfl, fun _ => rfl, rfl, rfl, rfl, id⟩
  rw [modifyThread_threads, Heap.get?_modify]
  split
  · rename_i same
    rw [same, Option.map_map]
    congr 1
    funext thread
    simp [core, refcnt]
  · rfl

/-- So is one of the data of a dso, if it learns nothing of a file that is not open. -/
theorem quiet_modifyDso {dso : Ref Dso} {change : Dso → Dso}
    (core : ∀ dso, (change dso).core = dso.core)
    (dormant : store.Dormant → ∀ object, store.dsos.get? dso = some object →
      (change object).data.Dormant) : store.Quiet (store.modifyDso dso change) := by
  refine ⟨rfl, fun _ => rfl, rfl, rfl, rfl, fun ref => ?_, rfl, rfl, rfl,
    fun before ref after live => ?_⟩
  · rw [modifyDso_dsos, Heap.get?_modify]
    split
    · rename_i same
      rw [same, Option.map_map]
      congr 1
      exact funext core
    · rfl
  · obtain ⟨object, wasLive, rfl⟩ := Heap.get?_modify_eq_some.mp live
    split
    · rename_i same
      subst same
      exact dormant before object wasLive
    · exact before ref object wasLive

namespace Steady

theorem refl (store : Store) : store.Steady store := ⟨rfl, fun _ => rfl, fun _ => rfl⟩

theorem trans (first : store.Steady next) (second : next.Steady last) : store.Steady last where
  bound := second.bound.trans first.bound
  threads := fun ref => (second.threads ref).trans (first.threads ref)
  maps := fun ref => (second.maps ref).trans (first.maps ref)

theorem of_eq (threads : next.threads = store.threads) (maps : next.maps = store.maps) :
    store.Steady next :=
  ⟨by rw [threads], fun _ => by rw [threads], fun _ => by rw [maps]⟩

/-- A live thread stays, with its core. -/
theorem live (steady : store.Steady next) {ref : Ref Thread} {thread : Thread}
    (isLive : store.threads.get? ref = some thread) :
    ∃ after, next.threads.get? ref = some after ∧ after.core = thread.core := by
  have same := steady.threads ref
  rw [isLive, Option.map_some, Option.map_eq_some_iff] at same
  exact same

theorem was_live (steady : store.Steady next) {ref : Ref Thread} {thread : Thread}
    (isLive : next.threads.get? ref = some thread) :
    ∃ before, store.threads.get? ref = some before ∧ thread.core = before.core := by
  have same := (steady.threads ref).symm
  rw [isLive, Option.map_some, Option.map_eq_some_iff] at same
  obtain ⟨before, wasLive, equal⟩ := same
  exact ⟨before, wasLive, equal.symm⟩

theorem was_maps (steady : store.Steady next) {ref : Ref Maps} {maps : Maps}
    (isLive : next.maps.get? ref = some maps) :
    ∃ before, store.maps.get? ref = some before ∧ maps.refcnt = before.refcnt := by
  have same := (steady.maps ref).symm
  rw [isLive, Option.map_some, Option.map_eq_some_iff] at same
  obtain ⟨before, wasLive, equal⟩ := same
  exact ⟨before, wasLive, equal.symm⟩

theorem live_maps (steady : store.Steady next) {ref : Ref Maps} {maps : Maps}
    (isLive : store.maps.get? ref = some maps) :
    ∃ after, next.maps.get? ref = some after ∧ after.refcnt = maps.refcnt := by
  have same := steady.maps ref
  rw [isLive, Option.map_some, Option.map_eq_some_iff] at same
  exact same

theorem keeps (steady : store.Steady next) : store.Keeps next := by
  intro ref thread isLive linked
  obtain ⟨after, afterLive, same⟩ := steady.live isLive
  simp only [Thread.core, Prod.mk.injEq] at same
  exact ⟨after, afterLive, same.2.1, same.2.2.2.trans linked⟩

end Steady

theorem steady_modifyThread {change : Thread → Thread}
    (core : ∀ thread, (change thread).core = thread.core) :
    store.Steady (store.modifyThread th change) := by
  refine ⟨rfl, fun ref => ?_, fun _ => rfl⟩
  rw [modifyThread_threads, Heap.get?_modify]
  split
  · rename_i same
    rw [same, Option.map_map]
    congr 1
    exact funext core
  · rfl

theorem steady_modifyMaps {maps : Ref Maps} {change : Maps → Maps}
    (refcnt : ∀ maps, (change maps).refcnt = maps.refcnt) :
    store.Steady (store.modifyMaps maps change) := by
  refine ⟨rfl, fun _ => rfl, fun ref => ?_⟩
  rw [modifyMaps_maps, Heap.get?_modify]
  split
  · rename_i same
    rw [same, Option.map_map]
    congr 1
    exact funext refcnt
  · rfl

end Store

variable {store next : Store} {th : Ref Thread}

theorem Dso.steady_get {dso : Ref Dso} (ran : Dso.get store dso = .ok next) :
    store.Steady next := by
  obtain ⟨_, -, done⟩ := bind_eq_ok_iff.mp ran
  cases done
  exact .of_eq rfl rfl

theorem Dso.steady_put {dso : Ref Dso} (ran : Dso.put store dso = .ok next) :
    store.Steady next := by
  obtain ⟨_, -, done⟩ := bind_eq_ok_iff.mp ran
  cases done
  exact .of_eq rfl rfl

theorem Dso.steady_findlink {dso : Option (Ref Dso)} {name : List Char} {found : Option (Ref Dso)}
    (ran : Dso.findlinkByLongname store dso name = .ok (found, next)) : store.Steady next := by
  unfold Dso.findlinkByLongname at ran
  split at ran
  · obtain ⟨_, -, done⟩ := bind_eq_ok_iff.mp ran
    cases done
    exact .refl _
  · split at ran
    · cases ran
      exact .refl _
    · cases ran
      exact .of_eq rfl rfl

theorem Dsos.steady_add {dso : Ref Dso} (ran : Dsos.add store dso = .ok next) :
    store.Steady next := by
  obtain ⟨object, -, rest⟩ := bind_eq_ok_iff.mp ran
  obtain ⟨⟨found, linked⟩, link, got⟩ := bind_eq_ok_iff.mp rest
  have listed : store.Steady { store with dsosHead := store.dsosHead ++ [dso] } := .of_eq rfl rfl
  exact (listed.trans (Dso.steady_findlink link)).trans (Dso.steady_get got)

theorem Dsos.steady_addnew {name : List Char} {dso : Ref Dso}
    (ran : Dsos.addnew store name = .ok (dso, next)) : store.Steady next := by
  obtain ⟨added, add, rest⟩ := bind_eq_ok_iff.mp ran
  obtain ⟨named, put, done⟩ := bind_eq_ok_iff.mp rest
  cases done
  have allocated : store.Steady { store with dsos := store.dsos.alloc (Dso.new name) } :=
    .of_eq rfl rfl
  have renamed : added.Steady (Dso.setBasename added store.dsos.nextRef) := .of_eq rfl rfl
  exact (allocated.trans (Dsos.steady_add add)).trans (renamed.trans (Dso.steady_put put))

/-- Finding or adding a dso touches no thread. -/
theorem Dsos.steady_findnew {name : List Char} {dso : Ref Dso}
    (ran : Dsos.findnew store name = .ok (dso, next)) : store.Steady next := by
  obtain ⟨found, -, rest⟩ := bind_eq_ok_iff.mp ran
  cases found with
  | some old =>
      obtain ⟨middle, got, done⟩ := bind_eq_ok_iff.mp rest
      cases done
      exact Dso.steady_get got
  | none =>
      obtain ⟨⟨new, added⟩, add, rest⟩ := bind_eq_ok_iff.mp rest
      obtain ⟨middle, got, done⟩ := bind_eq_ok_iff.mp rest
      cases done
      exact (Dsos.steady_addnew add).trans (Dso.steady_get got)

theorem Map.steady_new {event : MmapEvent} {map : Ref Map}
    (ran : Map.new store event = .ok (map, next)) : store.Steady next := by
  obtain ⟨⟨dso, found⟩, find, rest⟩ := bind_eq_ok_iff.mp ran
  obtain ⟨held, got, rest⟩ := bind_eq_ok_iff.mp rest
  obtain ⟨middle, put, done⟩ := bind_eq_ok_iff.mp rest
  cases done
  have first := (Dsos.steady_findnew find).trans (Dso.steady_get got)
  have allocated : held.Steady { held with mapObjs := held.mapObjs.alloc (Map.init event dso) } :=
    .of_eq rfl rfl
  exact first.trans (allocated.trans (Dso.steady_put put))

theorem Thread.quiet_prepareAccess {created prepared : Bool}
    (ran : Thread.prepareAccess store th created = .ok (prepared, next)) : store.Quiet next := by
  obtain ⟨thread, -, rest⟩ := bind_eq_ok_iff.mp ran
  split at rest
  · cases rest
    exact .refl _
  · cases rest
    exact Store.quiet_modifyThread (fun _ => rfl) fun _ => rfl

theorem Thread.dsos_prepareAccess {created prepared : Bool}
    (ran : Thread.prepareAccess store th created = .ok (prepared, next)) :
    next.dsos = store.dsos := by
  obtain ⟨thread, -, rest⟩ := bind_eq_ok_iff.mp ran
  split at rest
  · cases rest
    rfl
  · cases rest
    rfl

/-- Inserting a map changes a tree of ranges. -/
theorem Maps.steady_insert {maps : Ref Maps} {map : Ref Map}
    (ran : Maps.insert store maps map = .ok next) : store.Steady next := by
  obtain ⟨object, -, rest⟩ := bind_eq_ok_iff.mp ran
  obtain ⟨stored, -, rest⟩ := bind_eq_ok_iff.mp rest
  split at rest
  · cases rest
  · rename_i path _
    obtain ⟨_, -, done⟩ := bind_eq_ok_iff.mp rest
    cases done
    have linked : store.Steady (store.modifyMaps maps fun object =>
        { object with entries := Tree.link path map, head := object.head ++ [map] }) :=
      Store.steady_modifyMaps fun _ => rfl
    exact linked.trans (.of_eq rfl rfl)

/-- Inserting a map for a thread prepares the thread as well. -/
theorem Thread.steady_insertMap {map : Ref Map} {created inserted : Bool}
    (ran : Thread.insertMap store th map created = .ok (inserted, next)) : store.Steady next := by
  obtain ⟨⟨prepared, ready⟩, prepare, rest⟩ := bind_eq_ok_iff.mp ran
  have first := (Thread.quiet_prepareAccess prepare).steady
  dsimp only at rest
  split at rest
  · obtain ⟨thread, -, rest⟩ := bind_eq_ok_iff.mp rest
    split at rest
    · cases rest
    · obtain ⟨middle, insert, done⟩ := bind_eq_ok_iff.mp rest
      cases done
      exact first.trans (Maps.steady_insert insert)
  · cases rest
    exact first

theorem Map.steady_listDel {map : Ref Map} (listed : Option Nat) :
    store.Steady (Map.listDel store map listed) := by
  cases listed with
  | none => exact .of_eq rfl rfl
  | some owner =>
      have erased : store.Steady (store.modifyMaps ⟨owner⟩ fun maps =>
          { maps with head := maps.head.erase map }) := Store.steady_modifyMaps fun _ => rfl
      exact erased.trans (.of_eq rfl rfl)

/-- The put of a map touches no thread. -/
theorem Map.steady_put {map : Ref Map} (ran : Map.put store map = .ok next) :
    store.Steady next := by
  obtain ⟨object, -, rest⟩ := bind_eq_ok_iff.mp ran
  have released : store.Steady (store.modifyMap map fun map =>
      { map with refcnt := map.refcnt - 1 }) := .of_eq rfl rfl
  split at rest
  · obtain ⟨again, -, rest⟩ := bind_eq_ok_iff.mp rest
    split at rest
    · cases rest
    · obtain ⟨middle, put, done⟩ := bind_eq_ok_iff.mp rest
      cases done
      have freed : middle.Steady { middle with mapObjs := middle.mapObjs.free map } :=
        .of_eq rfl rfl
      exact ((released.trans (Map.steady_listDel _)).trans (Dso.steady_put put)).trans freed
  · cases rest
    exact released

theorem Thread.steady_put {thread : Thread} (live : store.threads.get? th = some thread)
    (linked : thread.node = .tree) (ran : Thread.put store th = .ok next) : store.Steady next := by
  rw [Thread.put_of_linked live linked] at ran
  split at ran
  · cases ran
  · cases ran
    exact Store.steady_modifyThread fun _ => rfl

/-- Recording a map for a linked thread. -/
theorem steady_recordMap {event : MmapEvent} {created : Bool} {thread : Thread} {result : Unit}
    (live : store.threads.get? th = some thread) (linked : thread.node = .tree)
    (ran : recordMap event created store th = .ok (result, next)) : store.Steady next := by
  obtain ⟨⟨map, mapped⟩, new, rest⟩ := bind_eq_ok_iff.mp ran
  obtain ⟨⟨inserted, entered⟩, insert, rest⟩ := bind_eq_ok_iff.mp rest
  have first := (Map.steady_new new).trans (Thread.steady_insertMap insert)
  dsimp only at rest
  split at rest
  · obtain ⟨released, putThread, rest⟩ := bind_eq_ok_iff.mp rest
    obtain ⟨final, putMap, done⟩ := bind_eq_ok_iff.mp rest
    cases done
    obtain ⟨after, afterLive, same⟩ := first.live live
    simp only [Thread.core, Prod.mk.injEq] at same
    have second := Thread.steady_put afterLive (same.2.2.2.trans linked) putThread
    exact (first.trans second).trans (Map.steady_put putMap)
  · cases rest

theorem Store.quiet_withData {α : Type} {dso : Ref Dso}
    {work : DsoData → Except Fault (α × DsoData)} {os : Os} {result : α}
    (returns : ∀ data : DsoData, data.Dormant → data.Returns os (work data))
    (ran : store.withData dso work = .ok (result, next)) : store.Quiet next := by
  obtain ⟨object, live, rest⟩ := bind_eq_ok_iff.mp ran
  obtain ⟨⟨value, data⟩, worked, done⟩ := bind_eq_ok_iff.mp rest
  cases done
  refine quiet_modifyDso (fun _ => rfl) fun dormant other isLive => ?_
  cases (deref_eq_ok_iff.mp live).symm.trans isLive
  exact (returns _ (dormant dso object isLive)).dormant worked

/-- A read from the files changes the data of one dso. -/
theorem quiet_accessDsoMem {os : Os} {info : UnwindInfo} {addr : U64} {answer : Int × U64}
    (ran : accessDsoMem os store info addr = .ok (answer, next)) : store.Quiet next := by
  obtain ⟨found, -, rest⟩ := bind_eq_ok_iff.mp ran
  cases found with
  | none => cases rest; exact .refl _
  | some map =>
      obtain ⟨⟨⟨size, bytes⟩, after⟩, work, rest⟩ := bind_eq_ok_iff.mp rest
      have returns : ∀ data : DsoData, data.Dormant →
          data.Returns os (data.readBytes os (map.mapIp addr) 8) :=
        fun data dormant => data.readBytes_returns dormant _ (by decide)
      dsimp only at rest
      split at rest
      · cases rest
        exact Store.quiet_withData returns work
      · cases rest
        exact Store.quiet_withData returns work

theorem quiet_accessMem {os : Os} {info : UnwindInfo} {addr : U64} {write : Bool} {answer : Answer}
    (ran : accessMem os store info addr write = .ok (answer, next)) : store.Quiet next := by
  unfold accessMem at ran
  split at ran
  · cases ran
    exact .refl _
  · obtain ⟨start, -, ran⟩ := bind_eq_ok_iff.mp ran
    split at ran
    · cases ran
      exact .refl _
    · split at ran
      · obtain ⟨value, -, done⟩ := bind_eq_ok_iff.mp ran
        cases done
        exact .refl _
      · obtain ⟨⟨⟨status, value⟩, after⟩, access, rest⟩ := bind_eq_ok_iff.mp ran
        dsimp only at rest
        split at rest
        · cases rest
          exact quiet_accessDsoMem access
        · cases rest
          exact quiet_accessDsoMem access

theorem quiet_findProcInfo {os : Os} {elf : ElfAnswers} {searched : Int} {info : UnwindInfo}
    {ip : U64} {answer : Int × Option DynInfo}
    (ran : findProcInfo os elf searched store info ip = .ok (answer, next)) :
    store.Quiet next := by
  obtain ⟨found, -, rest⟩ := bind_eq_ok_iff.mp ran
  cases found with
  | none => cases rest; exact .refl _
  | some map =>
      obtain ⟨⟨spec, after⟩, work, rest⟩ := bind_eq_ok_iff.mp rest
      cases spec with
      | none =>
          cases rest
          exact Store.quiet_withData (fun _ => readUnwindSpecEhFrame_returns) work
      | some spec =>
          cases rest
          exact Store.quiet_withData (fun _ => readUnwindSpecEhFrame_returns) work

theorem quiet_request {info : UnwindInfo} {request : Request} {answer : Answer}
    (ran : request.step info store = .ok (answer, next)) : store.Quiet next := by
  cases request with
  | findProcInfo ip os elf searched =>
      obtain ⟨⟨⟨status, table⟩, after⟩, find, done⟩ := bind_eq_ok_iff.mp ran
      cases done
      exact quiet_findProcInfo find
  | accessMem addr write os => exact quiet_accessMem ran
  | accessReg regnum write =>
      obtain ⟨result, -, done⟩ := bind_eq_ok_iff.mp ran
      cases done
      exact .refl _

theorem quiet_requests {info : UnwindInfo} {requests : List Request} {answers : List Answer}
    (ran : runAll (Request.step info) requests store = .ok (answers, next)) : store.Quiet next := by
  induction requests generalizing store answers with
  | nil => cases ran; exact .refl _
  | cons request requests ih =>
      obtain ⟨answer, after, rest, first, later, -⟩ := runAll_cons_eq_ok.mp ran
      exact (quiet_request first).trans (ih later)

/-- `get_entries` changes the store by the requests of the unwinder, if at all. -/
theorem requests_of_getEntries {unwinder : Unwinder} {info : UnwindInfo} {st : Option Stacktrace}
    {result : Int × Option Stacktrace}
    (ran : getEntries unwinder store info st = .ok (result, next)) :
    next = store ∨
      ∃ answers, runAll (Request.step info) unwinder.requests store = .ok (answers, next) := by
  unfold getEntries at ran
  split at ran
  · cases ran
    exact .inl rfl
  · split at ran
    · cases ran
      exact .inl rfl
    · split at ran
      · cases ran
        exact .inl rfl
      · obtain ⟨⟨⟨status, st⟩, after⟩, into, done⟩ := bind_eq_ok_iff.mp ran
        cases done
        obtain ⟨val, -, into⟩ := bind_eq_ok_iff.mp into
        obtain ⟨ips, -, into⟩ := bind_eq_ok_iff.mp into
        obtain ⟨thread, -, into⟩ := bind_eq_ok_iff.mp into
        split at into
        · obtain ⟨⟨answers, served⟩, requests, into⟩ := bind_eq_ok_iff.mp into
          dsimp only at into
          split at into
          · obtain ⟨⟨index, ips⟩, -, done⟩ := bind_eq_ok_iff.mp into
            cases done
            exact .inr ⟨answers, requests⟩
          · cases into
            exact .inr ⟨answers, requests⟩
        · cases into
          exact .inl rfl

theorem Thread.quiet_setComm {str : Comm} {flushed : Bool}
    (ran : Thread.setComm store th str = .ok (flushed, next)) : store.Quiet next := by
  obtain ⟨thread, -, rest⟩ := bind_eq_ok_iff.mp ran
  split at rest
  · cases rest
    exact Store.quiet_modifyThread (fun _ => rfl) fun _ => rfl
  · cases rest
    exact .refl _

theorem Thread.dsos_setComm {str : Comm} {flushed : Bool}
    (ran : Thread.setComm store th str = .ok (flushed, next)) : next.dsos = store.dsos := by
  obtain ⟨thread, -, rest⟩ := bind_eq_ok_iff.mp ran
  split at rest
  · cases rest
    rfl
  · cases rest
    rfl

/-- A walk over a stack changes what the requests of libunwind change. -/
theorem Unwind.requests_of_getEntries {unwinder : Unwinder} {uc : UnwindCtx}
    {st : Option Stacktrace} {result : Int × Option Stacktrace}
    (ran : Unwind.getEntries unwinder store th uc st = .ok (result, next)) :
    next = store ∨
      ∃ answers, runAll (Request.step ⟨uc, th⟩) unwinder.requests store = .ok (answers, next) := by
  obtain ⟨thread, -, rest⟩ := bind_eq_ok_iff.mp ran
  split at rest
  · split at rest
    · cases rest
    · obtain ⟨maps, -, rest⟩ := bind_eq_ok_iff.mp rest
      exact DwBpf.requests_of_getEntries rest
  · cases rest
    exact .inl rfl

/-- Resolving a sample marks the thread and then serves the requests of the unwinder, if
it is asked. -/
theorem requests_of_resolveThread {st : Option Stacktrace} {uc : UnwindCtx} {created : Bool}
    {unwinder : Unwinder} {result : Resolved}
    (ran : resolveThread st uc created unwinder store th = .ok (result, next)) :
    ∃ ready, store.Quiet ready ∧ ready.dsos = store.dsos ∧ (next = ready ∨
      ∃ answers, runAll (Request.step ⟨uc, th⟩) unwinder.requests ready = .ok (answers, next)) := by
  obtain ⟨⟨prepared, ready⟩, prepare, rest⟩ := bind_eq_ok_iff.mp ran
  obtain ⟨⟨flushed, named⟩, comm, rest⟩ := bind_eq_ok_iff.mp rest
  obtain ⟨⟨⟨status, st'⟩, last⟩, entries, done⟩ := bind_eq_ok_iff.mp rest
  cases done
  exact ⟨named, (Thread.quiet_prepareAccess prepare).trans (Thread.quiet_setComm comm),
    (Thread.dsos_setComm comm).trans (Thread.dsos_prepareAccess prepare),
    Unwind.requests_of_getEntries entries⟩

theorem quiet_resolveThread {st : Option Stacktrace} {uc : UnwindCtx} {created : Bool}
    {unwinder : Unwinder} {result : Resolved}
    (ran : resolveThread st uc created unwinder store th = .ok (result, next)) :
    store.Quiet next := by
  obtain ⟨ready, quiet, -, rfl | ⟨answers, served⟩⟩ := requests_of_resolveThread ran
  · exact quiet
  · exact quiet.trans (quiet_requests served)

theorem store_of_iterateThread {callback : Nat → PhdrInfo → Int} {result : Int × List PhdrInfo}
    (ran : iterateThread callback store th = .ok (result, next)) : next = store := by
  obtain ⟨thread, -, rest⟩ := bind_eq_ok_iff.mp ran
  split at rest
  · cases rest
  · obtain ⟨object, -, rest⟩ := bind_eq_ok_iff.mp rest
    obtain ⟨visited, -, done⟩ := bind_eq_ok_iff.mp rest
    cases done
    rfl

theorem quiet_iterateThread {callback : Nat → PhdrInfo → Int} {result : Int × List PhdrInfo}
    (ran : iterateThread callback store th = .ok (result, next)) : store.Quiet next := by
  rw [store_of_iterateThread ran]
  exact .refl _

namespace Plain

theorem sharers_steady (steady : store.Steady next) (maps : Ref Maps) :
    sharers next maps = sharers store maps := by
  refine Heap.count_congr steady.bound fun ref => ?_
  have same := steady.threads ref
  cases live : store.threads.get? ref with
  | none =>
      rw [live, Option.map_none, Option.map_eq_none_iff] at same
      rw [same]
  | some thread =>
      obtain ⟨after, afterLive, core⟩ := steady.live live
      simp only [Thread.core, Prod.mk.injEq] at core
      rw [afterLive, Option.any_some, Option.any_some, core.2.2.1]

/-- A table stays sound over work that leaves the threads where they are. -/
theorem Sound.steady {table : Table} {pending : Option (Ref Thread)}
    (sound : Sound pending ⟨store, table⟩) (steady : store.Steady next) :
    Sound pending ⟨next, table⟩ := by
  refine ⟨⟨?_, ?_, ?_⟩, ?_, ?_, ?_, ?_⟩
  · intro tid ref found
    obtain ⟨thread, live, own⟩ := sound.tabled tid ref found
    obtain ⟨after, afterLive, core⟩ := steady.live live
    simp only [Thread.core, Prod.mk.injEq] at core
    exact ⟨after, afterLive, core.2.1.trans own⟩
  · intro ref thread live
    obtain ⟨before, wasLive, core⟩ := steady.was_live live
    simp only [Thread.core, Prod.mk.injEq] at core
    rw [core.2.1]
    exact sound.listed ref before wasLive
  · intro ref thread live
    obtain ⟨before, wasLive, core⟩ := steady.was_live live
    simp only [Thread.core, Prod.mk.injEq] at core
    rw [core.2.2.2]
    exact sound.linked ref before wasLive
  · intro ref thread live other
    obtain ⟨before, wasLive, core⟩ := steady.was_live live
    simp only [Thread.core, Prod.mk.injEq] at core
    rw [core.2.2.1]
    exact sound.mapped ref before wasLive other
  · intro ref thread maps live has
    obtain ⟨before, wasLive, core⟩ := steady.was_live live
    simp only [Thread.core, Prod.mk.injEq] at core
    rw [core.2.2.1] at has
    obtain ⟨object, stored⟩ := sound.live ref before maps wasLive has
    obtain ⟨after, afterStored, -⟩ := steady.live_maps stored
    exact ⟨after, afterStored⟩
  · intro maps object stored
    obtain ⟨before, wasStored, refcnt⟩ := steady.was_maps stored
    rw [refcnt, sharers_steady steady]
    exact sound.counted maps before wasStored
  · intro maps object stored
    obtain ⟨before, wasStored, -⟩ := steady.was_maps stored
    rw [sharers_steady steady]
    exact sound.shared maps before wasStored

end Plain

end DwBpf
