import DwBpf.Dso.Chunks
import DwBpf.Event.Callbacks
import DwBpf.Event.Enumeration

/-! # The search trees of the library are balanced

The threads of a bucket, the ranges of a maps object, the dsos and the chunks of a dso are
found by a descent in a red-black tree. In every state that a run of calls reaches all
these trees are balanced, so that no descent takes more than twice the logarithm of the
number of objects (`DwBpf.runs_balanced`).
-/

namespace DwBpf

/-- The trees of the store are balanced. -/
structure Store.TreesBalanced (store : Store) : Prop where
  maps : ∀ ref object, store.maps.get? ref = some object → object.entries.Balanced
  dsos : store.dsosRoot.Balanced
  chunks : ∀ ref dso, store.dsos.get? ref = some dso → dso.data.cache.Balanced

section Store

variable {store next found : Store} {event : MmapEvent} {th : Ref Thread} {dso : Ref Dso}
  {maps : Ref Maps} {object : Maps} {path : List (Frame (Ref Map))}

theorem Tree.balanced_nil {α : Type*} : (nil : Tree α).Balanced := ⟨0, .nil⟩

theorem Tree.eq_nil_of_toList {α : Type*} {tree : Tree α} (empty : tree.toList = []) :
    tree = nil := by
  cases tree with
  | nil => rfl
  | node color left value right => simp at empty

theorem balanced_empty : Store.empty.TreesBalanced where
  maps ref object stored := by cases stored
  dsos := Tree.balanced_nil
  chunks ref dso live := by cases live

theorem Store.TreesBalanced.regroups (balanced : store.TreesBalanced)
    (regroups : store.Regroups next) :
    next.TreesBalanced where
  maps := by
    intro ref after isAfter
    obtain ⟨empty, -⟩ | ⟨object, stored, entries, -⟩ := regroups.came ref after isAfter
    · rw [Tree.eq_nil_of_toList empty]
      exact Tree.balanced_nil
    · rw [entries]
      exact balanced.maps ref object stored
  dsos := regroups.dsosRoot ▸ balanced.dsos
  chunks := regroups.dsos ▸ balanced.chunks

theorem Dsos.Found.balanced {name : List Char} (isFound : Dsos.Found store name dso found)
    (balanced : store.dsosRoot.Balanced) : found.dsosRoot.Balanced := by
  cases isFound with
  | known => exact balanced
  | added fell => exact Tree.balanced_link balanced fell _

/-- Work on the data of one dso leaves all other trees. -/
theorem Store.TreesBalanced.withData {α : Type} {dso : Ref Dso} {result : α}
    {work : DsoData → Except Fault (α × DsoData)} (balanced : store.TreesBalanced)
    (kept : ∀ data after, data.cache.Balanced → work data = .ok (result, after) →
      after.cache.Balanced)
    (ran : store.withData dso work = .ok (result, next)) : next.TreesBalanced := by
  obtain ⟨object, live, rest⟩ := bind_eq_ok_iff.mp ran
  obtain ⟨⟨value, data⟩, worked, done⟩ := bind_eq_ok_iff.mp rest
  cases done
  refine ⟨balanced.maps, balanced.dsos, ?_⟩
  intro ref after isAfter
  obtain ⟨before, wasLive, rfl⟩ := Heap.get?_modify_eq_some.mp isAfter
  split
  · exact kept _ _ (balanced.chunks dso object (deref_eq_ok_iff.mp live)) worked
  · exact balanced.chunks ref before wasLive

/-- A word of a file is read through the cache. -/
theorem Store.TreesBalanced.accessDsoMem {os : Os} {info : UnwindInfo} {addr : U64}
    {answer : Int × U64} (balanced : store.TreesBalanced)
    (ran : accessDsoMem os store info addr = .ok (answer, next)) : next.TreesBalanced := by
  obtain ⟨found, -, rest⟩ := bind_eq_ok_iff.mp ran
  cases found with
  | none =>
      cases rest
      exact balanced
  | some map =>
      obtain ⟨⟨⟨size, bytes⟩, after⟩, work, rest⟩ := bind_eq_ok_iff.mp rest
      have kept := balanced.withData (fun _ _ chunks worked =>
        DsoData.balanced_readBytes chunks worked) work
      dsimp only at rest
      split at rest
      · cases rest
        exact kept
      · cases rest
        exact kept

/-- A word of the snapshot is read without it. -/
theorem Store.TreesBalanced.accessMem {os : Os} {info : UnwindInfo} {addr : U64} {write : Bool}
    {answer : Answer} (balanced : store.TreesBalanced)
    (ran : accessMem os store info addr write = .ok (answer, next)) : next.TreesBalanced := by
  unfold DwBpf.accessMem at ran
  split at ran
  · cases ran
    exact balanced
  · obtain ⟨start, -, ran⟩ := bind_eq_ok_iff.mp ran
    split at ran
    · cases ran
      exact balanced
    · split at ran
      · obtain ⟨value, -, done⟩ := bind_eq_ok_iff.mp ran
        cases done
        exact balanced
      · obtain ⟨⟨⟨status, value⟩, after⟩, access, rest⟩ := bind_eq_ok_iff.mp ran
        have kept := balanced.accessDsoMem access
        dsimp only at rest
        split at rest
        · cases rest
          exact kept
        · cases rest
          exact kept

theorem Store.TreesBalanced.findProcInfo {os : Os} {elf : ElfAnswers} {searched : Int}
    {info : UnwindInfo} {ip : U64} {answer : Int × Option DynInfo} (balanced : store.TreesBalanced)
    (ran : findProcInfo os elf searched store info ip = .ok (answer, next)) :
      next.TreesBalanced := by
  obtain ⟨found, -, rest⟩ := bind_eq_ok_iff.mp ran
  cases found with
  | none =>
      cases rest
      exact balanced
  | some map =>
      obtain ⟨⟨spec, after⟩, work, rest⟩ := bind_eq_ok_iff.mp rest
      have kept := balanced.withData (fun _ _ chunks worked =>
        balanced_readUnwindSpecEhFrame chunks worked) work
      cases spec with
      | none =>
          cases rest
          exact kept
      | some spec =>
          cases rest
          exact kept

/-- Whatever libunwind asks for, the trees stay balanced. -/
theorem Store.TreesBalanced.request {info : UnwindInfo} {request : Request} {answer : Answer}
    (balanced : store.TreesBalanced) (ran : request.step info store = .ok (answer, next)) :
    next.TreesBalanced := by
  cases request with
  | findProcInfo ip os elf searched =>
      obtain ⟨⟨⟨status, table⟩, after⟩, find, done⟩ := bind_eq_ok_iff.mp ran
      cases done
      exact balanced.findProcInfo find
  | accessMem addr write os => exact balanced.accessMem ran
  | accessReg regnum write =>
      obtain ⟨result, -, done⟩ := bind_eq_ok_iff.mp ran
      cases done
      exact balanced

theorem Store.TreesBalanced.resolveThread {st : Option Stacktrace} {uc : UnwindCtx} {created : Bool}
    {unwinder : Unwinder} {result : Resolved} (balanced : store.TreesBalanced)
    (ran : resolveThread st uc created unwinder store th = .ok (result, next)) :
    next.TreesBalanced := by
  obtain ⟨ready, quiet, dsos, served⟩ := requests_of_resolveThread ran
  have marked : ready.TreesBalanced :=
    ⟨quiet.maps ▸ balanced.maps, quiet.dsosRoot ▸ balanced.dsos, dsos ▸ balanced.chunks⟩
  obtain rfl | ⟨answers, served⟩ := served
  · exact marked
  · exact runAll_invariant (fun request before answer after balanced _ ran => balanced.request ran)
      marked (eachStep_of_forall (fun _ _ _ => trivial) ready) served

end Store

namespace Plain

variable {machine middle next : Plain} {tgid tid : Pid} {th : Ref Thread} {visit : Visit}

/-- Recording a map inserts into one tree of ranges and, if the dso is new, into that of
the dsos. -/
theorem Visited.recordedMap {event : MmapEvent} {created : Bool}
    (visited : Visited (.record event created) machine tgid tid th middle next)
    (accounted : machine.store.Accounted) (balanced : machine.store.TreesBalanced) :
    next.store.TreesBalanced := by
  have regrouped := balanced.regroups visited.outcome.regroups
  obtain ⟨-, thread, live, -⟩ := visited.home
  obtain ⟨dso, found, maps, object, path, recorded⟩ := recorded_of_recordMap
    (accounted.regroups visited.outcome.regroups).interned live
    (visited.sound.linked th thread live) visited.worked
  refine ⟨?_, recorded.dsosRoot ▸ recorded.interned.balanced regrouped.dsos,
    visited.data_of_record (fun _ data => data.cache.Balanced) accounted
      (fun _ => Tree.balanced_nil) balanced.chunks⟩
  intro ref after isAfter
  obtain ⟨-, entries, -⟩ | ⟨-, stored⟩ := recorded.maps_cases isAfter
  · rw [entries]
    exact Tree.balanced_link (regrouped.maps maps object recorded.stored) recorded.fell _
  · exact regrouped.maps ref after stored

/-- A visit inserts there only, and into the trees of the chunks. -/
theorem Visited.balanced (visited : Visited visit machine tgid tid th middle next)
    (accounted : machine.store.Accounted) (balanced : machine.store.TreesBalanced) :
    next.store.TreesBalanced := by
  have regrouped := balanced.regroups visited.outcome.regroups
  cases visit with
  | fault failure => cases visited.pair
  | record event created => exact visited.recordedMap accounted balanced
  | resolve st uc created unwinder =>
      obtain ⟨⟨result, last⟩, resolve, done⟩ := bind_eq_ok_iff.mp visited.worked
      cases done
      exact regrouped.resolveThread resolve
  | iterate tgid callback =>
      obtain ⟨⟨result, last⟩, iterate, done⟩ := bind_eq_ok_iff.mp visited.worked
      cases done
      rw [store_of_iterateThread iterate]
      exact regrouped

theorem step_balanced {call : Call} {reply : Reply} (sound : Sound none machine)
    (before : machine.store.Accounted ∧ machine.store.TreesBalanced)
    (stepped : Plain.step call machine = .ok (reply, next)) :
    next.store.Accounted ∧ next.store.TreesBalanced := by
  refine @step_keeps machine next call
    (fun plain => plain.store.Accounted ∧ plain.store.TreesBalanced) sound ?_ before reply stepped
  intro visit member plain tgid tid th middle next before plainSound visited
  exact ⟨visited.accounted before.1, visited.balanced before.1 before.2⟩

end Plain

namespace Machine

variable {machine next : Machine} {index : Fin threadsTableSize} {tgid tid : Pid}
  {th : Ref Thread} {lookup : Lookup (Fin threadsTableSize → Threads)}
  {found : Option (Ref Thread)}

/-- The trees of all buckets are balanced. -/
def Balanced (machine : Machine) : Prop := ∀ index, (machine.table index).entries.Balanced

theorem Balanced.modifyBucket {change : Threads → Threads} (balanced : machine.Balanced)
    (kept : (change (machine.table index)).entries.Balanced) :
    (machine.modifyBucket index change).Balanced := by
  intro other
  by_cases same : other = index
  · subst same
    rw [modifyBucket_self]
    exact kept
  · rw [modifyBucket_of_ne _ _ _ same]
    exact balanced other

/-- The lookup of a leader keeps the trees of the buckets balanced. -/
def Leads (lookup : Lookup (Fin threadsTableSize → Threads)) : Prop :=
  ∀ machine tgid found next, Balanced machine → lookup machine tgid tgid = .ok (found, next) →
    Balanced next

/-- Moving a thread to its process may insert the leader, which the inner lookup does. -/
theorem Balanced.updateThreadTgid (leads : Leads lookup) (balanced : machine.Balanced)
    (ran : updateThreadTgid lookup machine th tgid = .ok next) : next.Balanced := by
  obtain ⟨thread, -, rest⟩ := bind_eq_ok_iff.mp ran
  split at rest
  · cases rest
    exact balanced
  · split at rest
    · cases rest
      exact balanced
    · obtain ⟨⟨found, after⟩, looked, rest⟩ := bind_eq_ok_iff.mp rest
      have kept : Balanced after :=
        leads (machine.modifyThread th fun thread => { thread with tgid := tgid }) tgid found after
          balanced looked
      cases found with
      | none => cases rest
      | some leader =>
          obtain ⟨store, -, done⟩ := bind_eq_ok_iff.mp rest
          cases done
          exact kept

theorem Balanced.matched (leads : Leads lookup) (balanced : machine.Balanced)
    (ran : matched lookup machine th tgid = .ok (found, next)) : next.Balanced := by
  obtain ⟨after, updated, rest⟩ := bind_eq_ok_iff.mp ran
  obtain ⟨store, -, done⟩ := bind_eq_ok_iff.mp rest
  cases done
  have kept : Balanced after := balanced.updateThreadTgid leads updated
  exact kept

theorem Balanced.initMaps {mapped : Bool} (leads : Leads lookup) (balanced : machine.Balanced)
    (ran : Thread.initMaps lookup machine th = .ok (mapped, next)) : next.Balanced := by
  obtain ⟨thread, -, rest⟩ := bind_eq_ok_iff.mp ran
  obtain ⟨after, shared, rest⟩ := bind_eq_ok_iff.mp rest
  obtain ⟨ready, -, done⟩ := bind_eq_ok_iff.mp rest
  cases done
  unfold leaderMaps at shared
  split at shared
  · cases shared
    exact balanced
  · obtain ⟨⟨found, middle⟩, looked, rest⟩ := bind_eq_ok_iff.mp shared
    have kept := leads _ _ found middle balanced looked
    cases found with
    | none =>
        cases rest
        exact kept
    | some leader =>
        obtain ⟨store, -, done⟩ := bind_eq_ok_iff.mp rest
        cases done
        exact kept

/-- A leader gets maps of its own. -/
theorem mapped_of_leader {mapped : Bool} {thread : Thread}
    (live : machine.store.threads.get? th = some thread) (self : thread.tgid = thread.tid)
    (ran : Thread.initMaps lookup machine th = .ok (mapped, next)) : mapped = true := by
  unfold Thread.initMaps leaderMaps at ran
  simp only [deref_of_get? live, ok_bind, self, ↓reduceIte] at ran
  obtain ⟨after, isAfter, done⟩ := bind_eq_ok_iff.mp ran
  cases done
  obtain ⟨before, -, rfl⟩ := Heap.get?_modify_eq_some.mp (deref_eq_ok_iff.mp isAfter)
  rw [if_pos rfl]
  rfl

/-- A descent that finds no thread links one where it falls off. -/
theorem Balanced.descend (leads : Leads lookup) (balanced : machine.Balanced)
    (ran : descend lookup machine index tgid tid true = .ok (found, next))
    (hit : tgid = tid ∨ found ≠ none) : next.Balanced := by
  unfold Machine.descend at ran
  split at ran
  case h_1 th located =>
    obtain ⟨thread, -, rest⟩ := bind_eq_ok_iff.mp ran
    exact (balanced.modifyBucket (balanced index)).matched leads rest
  case h_2 path fell =>
    rw [if_pos rfl] at ran
    obtain ⟨⟨ready, after⟩, initialised, rest⟩ := bind_eq_ok_iff.mp ran
    have linked : Balanced (Machine.modifyBucket
        ⟨machine.store.newThread tgid tid, machine.table⟩ index fun threads =>
          { threads with entries := Tree.link path machine.store.threads.nextRef }) :=
      Balanced.modifyBucket balanced (Tree.balanced_link (balanced index) fell _)
    have kept := linked.initMaps leads initialised
    cases ready with
    | true =>
        obtain ⟨store, -, done⟩ := bind_eq_ok_iff.mp rest
        cases done
        exact Balanced.modifyBucket kept (kept index)
    | false =>
        -- the thread is taken out of the tree again, and the lookup returns no thread
        exfalso
        obtain ⟨store, -, done⟩ := bind_eq_ok_iff.mp rest
        cases done
        obtain self | hit := hit
        · subst self
          exact absurd (mapped_of_leader (Heap.get?_alloc_nextRef _ _) rfl initialised) (by decide)
        · exact hit rfl

theorem Balanced.findnewThreadIn (leads : Leads lookup) (balanced : machine.Balanced)
    (ran : findnewThreadIn lookup machine index tgid tid true = .ok (found, next))
    (hit : tgid = tid ∨ found ≠ none) : next.Balanced := by
  unfold Machine.findnewThreadIn at ran
  split at ran
  case h_1 th last =>
    obtain ⟨thread, -, rest⟩ := bind_eq_ok_iff.mp ran
    split at rest
    · exact balanced.matched leads rest
    · exact (balanced.modifyBucket (balanced index)).descend leads rest hit
  case h_2 => exact balanced.descend leads ran hit

theorem leads_findnewThreadIn (leads : Leads lookup) :
    Leads fun machine tgid tid => findnewThreadIn lookup machine (bucket tid) tgid tid true := by
  intro machine tgid found next balanced ran
  exact balanced.findnewThreadIn leads ran (.inl rfl)

theorem Balanced.findnewThread (balanced : machine.Balanced)
    (ran : findnewThread machine tgid tid = .ok (some th, next)) : next.Balanced := by
  have shallow : Leads (findnewThreadWithin 0) := by
    intro machine tgid found next _ ran
    cases ran
  exact balanced.findnewThreadIn (leads_findnewThreadIn shallow) ran (.inr (Option.some_ne_none th))

/-- The buckets stay balanced over a visit, as its work does not touch them. -/
theorem Balanced.visit {visit : Visit} {done : Unit} (balanced : machine.Balanced)
    (ran : visit.step Machine.findnewThread machine = .ok (done, next)) : next.Balanced := by
  have kept : ∀ work : Store → Ref Thread → Except Fault (Unit × Store), ∀ tgid tid,
      withThread Machine.findnewThread machine tgid tid work = .ok (done, next) →
        next.Balanced := by
    intro work tgid tid ran
    obtain ⟨⟨found, after⟩, looked, rest⟩ := bind_eq_ok_iff.mp ran
    cases found with
    | none => cases rest
    | some th =>
        obtain ⟨⟨result, store⟩, -, done⟩ := bind_eq_ok_iff.mp rest
        cases done
        have kept : Balanced after := balanced.findnewThread looked
        exact kept
  cases visit with
  | fault failure => cases ran
  | record event created => exact kept _ event.tgid event.tid ran
  | resolve st uc created unwinder => exact kept _ uc.tgid uc.tid ran
  | iterate tgid callback => exact kept _ tgid tgid ran

theorem Balanced.step {call : Call} {reply : Reply} (balanced : machine.Balanced)
    (stepped : Machine.step call machine = .ok (reply, next)) : next.Balanced := by
  obtain ⟨dones, ran⟩ := visits_of_step Machine.findnewThread stepped
  have each : EachStep (Visit.step Machine.findnewThread) (fun _ _ => True) call.visits machine :=
    eachStep_of_forall (fun _ _ _ => trivial) machine
  exact runAll_invariant (fun visit before done after balanced _ ran => balanced.visit ran)
    balanced each ran

theorem balanced_new : Balanced Machine.new := fun _ => Tree.balanced_nil

end Machine

/-- A descent compares with no more than `2 * log2 (n + 1)` of the values, whether it falls
off or stops at one of them. -/
structure Tree.Shallow {α : Type*} (tree : Tree α) : Prop where
  falls : ∀ steer leaf, tree.locate steer [] = .inr leaf →
    leaf.length ≤ 2 * Nat.log 2 (tree.toList.length + 1)
  stops : ∀ steer value, tree.locate steer [] = .inl value →
    ∃ passed, tree.descent steer = passed ++ [value] ∧
      (passed ++ [value]).length ≤ 2 * Nat.log 2 (tree.toList.length + 1)

theorem Tree.Balanced.shallow {α : Type*} {tree : Tree α} (balanced : tree.Balanced) :
    tree.Shallow where
  falls := by
    intro steer leaf fell
    rw [length_of_locate fell, List.length_nil, Nat.zero_add]
    exact (length_descent_le steer tree).trans balanced.depth_le
  stops := by
    intro steer value stopped
    obtain ⟨passed, compared⟩ := descent_of_locate stopped
    refine ⟨passed, compared, ?_⟩
    rw [← compared]
    exact (length_descent_le steer tree).trans balanced.depth_le

theorem Machine.balanced_of_run {calls : List Call} {replies : List Reply} {machine : Machine}
    (ran : runAll Machine.step calls Machine.new = .ok (replies, machine)) :
    machine.Balanced ∧ machine.store.TreesBalanced := by
  have start : Plain.new.store.Accounted ∧ Plain.new.store.TreesBalanced :=
    ⟨accounted_empty, balanced_empty⟩
  obtain ⟨plain, matched, -, balanced⟩ := Machine.runs_keep Machine.matches_new start
    (fun call plain reply next sound before stepped => Plain.step_balanced sound before stepped) ran
  refine ⟨?_, matched.1.store ▸ balanced⟩
  exact runAll_invariant (fun call before reply after balanced _ stepped => balanced.step stepped)
    Machine.balanced_new (eachStep_of_forall (fun _ _ _ => trivial) Machine.new) ran

end DwBpf
