import DwBpf.Event.Exact

/-! # The command names of threads

`thread__set_comm` takes over the name of a sample, and flushes the cache of the
unwinder, when `strncmp` finds the names equal, and otherwise leaves the old name
and the cache. So a thread keeps the name it has, which is empty to begin with,
and there is no sample after which its name is that of the sample and the cache
was flushed exactly on a change (`DwBpf.samples_never_follow`).
-/

namespace DwBpf

section Dsos

variable {store next : Store} {info : UnwindInfo}

/-- Nothing changed but dsos. -/
def Store.OnlyDsos (store next : Store) : Prop := next = { store with dsos := next.dsos }

theorem Store.OnlyDsos.trans {last : Store} (first : store.OnlyDsos next)
    (second : next.OnlyDsos last) : store.OnlyDsos last := by
  unfold OnlyDsos at first second ⊢
  rw [first] at second
  exact second

theorem Store.onlyDsos_of_withData {α : Type} {dso : Ref Dso}
    {work : DsoData → Except Fault (α × DsoData)} {result : α}
    (ran : store.withData dso work = .ok (result, next)) : store.OnlyDsos next := by
  obtain ⟨object, -, rest⟩ := bind_eq_ok_iff.mp ran
  obtain ⟨⟨value, data⟩, -, done⟩ := bind_eq_ok_iff.mp rest
  cases done
  rfl

/-- A read from the files changes the data of its dso only. -/
theorem onlyDsos_of_accessDsoMem {os : Os} {addr : U64} {answer : Int × U64}
    (ran : accessDsoMem os store info addr = .ok (answer, next)) :
    store.OnlyDsos next := by
  obtain ⟨found, -, rest⟩ := bind_eq_ok_iff.mp ran
  cases found with
  | none => cases rest; rfl
  | some map =>
      obtain ⟨⟨⟨size, bytes⟩, after⟩, work, rest⟩ := bind_eq_ok_iff.mp rest
      have same := Store.onlyDsos_of_withData work
      dsimp only at rest
      split at rest
      · cases rest
        exact same
      · cases rest
        exact same

theorem onlyDsos_of_request {request : Request} {answer : Answer}
    (ran : request.step info store = .ok (answer, next)) : store.OnlyDsos next := by
  cases request with
  | findProcInfo ip os elf searched =>
      obtain ⟨⟨⟨status, table⟩, after⟩, find, done⟩ := bind_eq_ok_iff.mp ran
      cases done
      obtain ⟨found, -, rest⟩ := bind_eq_ok_iff.mp find
      cases found with
      | none => cases rest; rfl
      | some map =>
          obtain ⟨⟨spec, after⟩, work, rest⟩ := bind_eq_ok_iff.mp rest
          have same := Store.onlyDsos_of_withData work
          cases spec with
          | none => cases rest; exact same
          | some spec => cases rest; exact same
  | accessMem addr write os =>
      rw [Request.step, accessMem] at ran
      split at ran
      · cases ran
        rfl
      · obtain ⟨start, -, ran⟩ := bind_eq_ok_iff.mp ran
        split at ran
        · cases ran
          rfl
        · split at ran
          · obtain ⟨value, -, done⟩ := bind_eq_ok_iff.mp ran
            cases done
            rfl
          · obtain ⟨⟨⟨status, value⟩, after⟩, access, rest⟩ := bind_eq_ok_iff.mp ran
            have same := onlyDsos_of_accessDsoMem access
            dsimp only at rest
            split at rest
            · cases rest
              exact same
            · cases rest
              exact same
  | accessReg regnum write =>
      obtain ⟨result, -, done⟩ := bind_eq_ok_iff.mp ran
      cases done
      rfl

theorem onlyDsos_of_requests {requests : List Request} {answers : List Answer}
    (ran : runAll (Request.step info) requests store = .ok (answers, next)) :
    store.OnlyDsos next := by
  induction requests generalizing store answers with
  | nil => cases ran; rfl
  | cons request requests ih =>
      obtain ⟨answer, after, rest, first, later, -⟩ := runAll_cons_eq_ok.mp ran
      exact (onlyDsos_of_request first).trans (ih later)

theorem onlyDsos_of_resolve {unwinder : Unwinder} {th : Ref Thread} {uc : UnwindCtx}
    {st : Option Stacktrace} {result : Int × Option Stacktrace}
    (ran : Unwind.getEntries unwinder store th uc st = .ok (result, next)) :
    store.OnlyDsos next := by
  rcases Unwind.requests_of_getEntries ran with rfl | ⟨answers, requests⟩
  · rfl
  · exact onlyDsos_of_requests requests

end Dsos

/-- What a sample reads and writes in its thread: the name, and whether libunwind
was given access. -/
def Thread.marks (thread : Thread) : Comm × Bool × Bool :=
  (thread.name, thread.addrSpace, thread.ulops)

namespace Plain

variable {machine next : Plain} {tgid tid : Pid} {th : Ref Thread} {thread : Thread}

/-- The marks of the thread under a tid, as `thread__new` leaves them if there is none. -/
def marksOf (machine : Plain) (tid : Pid) : Comm × Bool × Bool :=
  (((machine.table tid).bind machine.store.threads.get?).map Thread.marks).getD
    (fun _ => 0, false, false)

theorem marksOf_of_live (found : machine.table tid = some th)
    (live : machine.store.threads.get? th = some thread) : machine.marksOf tid = thread.marks := by
  rw [marksOf, found, Option.bind_some, live]
  rfl

theorem marksOf_of_absent (absent : machine.table tid = none) :
    machine.marksOf tid = (fun _ => 0, false, false) := by
  rw [marksOf, absent]
  rfl

/-- A change that keeps the marks of all threads in the table. -/
theorem marksOf_congr (table : next.table tid = machine.table tid)
    (same : ∀ th, machine.table tid = some th →
      (next.store.threads.get? th).map Thread.marks =
        (machine.store.threads.get? th).map Thread.marks) :
    next.marksOf tid = machine.marksOf tid := by
  unfold marksOf
  rw [table]
  cases found : machine.table tid with
  | none => rfl
  | some th => rw [Option.bind_some, Option.bind_some, same th found]

theorem marks_modify {heap : Heap Thread} {change : Thread → Thread}
    (keeps : ∀ thread, (change thread).marks = thread.marks) (ref : Ref Thread) :
    ((heap.modify th change).get? ref).map Thread.marks = (heap.get? ref).map Thread.marks := by
  rw [Heap.get?_modify]
  split
  · rename_i same
    rw [same, Option.map_map]
    congr 1
    exact funext keeps
  · rfl

theorem marksOf_modifyThread {change : Thread → Thread}
    (keeps : ∀ thread, (change thread).marks = thread.marks) (tid : Pid) :
    marksOf (machine.modifyThread th change) tid = machine.marksOf tid := by
  apply marksOf_congr
  · rfl
  · intro ref _
    exact marks_modify keeps ref

theorem marks_retainedIn (tgid : Pid) (thread : Thread) :
    (retainedIn tgid thread).marks = thread.marks := rfl

theorem marksOf_joined {leader : Ref Thread} {new : Ref Maps} (tid : Pid) :
    (machine.joined tgid th leader new).marksOf tid = machine.marksOf tid := by
  apply marksOf_congr
  · rfl
  · intro ref _
    rw [joined, Store.modifyThread_threads]
    refine (marks_modify ?_ ref).trans ?_
    · exact fun _ => rfl
    · rw [Store.modifyThread_threads]
      refine marks_modify ?_ ref
      exact fun _ => rfl

/-- A new thread has the marks that count for an absent one. -/
theorem marksOf_enter {created : Thread} {entered : Pid} (tabled : machine.Tabled)
    (absent : machine.table entered = none) (unmarked : created.marks = (fun _ => 0, false, false))
    (table : next.table = Function.update machine.table entered
      (some machine.store.threads.nextRef))
    (threads : next.store.threads = machine.store.threads.alloc created) (tid : Pid) :
    next.marksOf tid = machine.marksOf tid := by
  by_cases same : tid = entered
  · have nextLive : next.store.threads.get? machine.store.threads.nextRef = some created := by
      rw [threads, Heap.get?_alloc_nextRef]
    rw [same, marksOf_of_absent absent,
      marksOf_of_live (by rw [table, Function.update_self]) nextLive, unmarked]
  · apply marksOf_congr
    · rw [table, Function.update_of_ne same]
    · intro th found
      obtain ⟨thread, live, -⟩ := tabled tid th found
      rw [threads, live, Heap.get?_alloc_of_some _ live]

theorem marksOf_ensure (tabled : machine.Tabled) (tgid tid : Pid) :
    (machine.ensure tgid).marksOf tid = machine.marksOf tid := by
  cases found : machine.table tgid with
  | some leader => rw [ensure_of_some found]
  | none =>
      have unmarked : Thread.marks { Thread.new tgid tgid with
          node := .tree, maps := some machine.store.maps.nextRef } = (fun _ => 0, false, false) :=
            rfl
      apply marksOf_enter tabled found unmarked
      · rw [ensure, found]
      · rw [ensure, found]

theorem marksOf_enroll (tabled : machine.Tabled) (absent : machine.table tid = none) (tgid : Pid)
    (other : Pid) : (machine.enroll tgid tid).marksOf other = machine.marksOf other :=
  marksOf_enter tabled absent rfl rfl rfl other

/-- Threads change under a lookup, but for their marks. -/
theorem Outcome.marksOf_eq {found : Option (Ref Thread)}
    (outcome : Outcome machine tgid tid (.ok (found, next))) (sound : Sound none machine)
    (other : Pid) : next.marksOf other = machine.marksOf other := by
  have ensured := marksOf_ensure sound.tabled tgid other
  cases outcome with
  | leader self led => rw [marksOf_modifyThread (marks_retainedIn tgid), ensured]
  | stays member isFound live stays => exact marksOf_modifyThread (marks_retainedIn tgid) other
  | shares moves shares =>
      rw [marksOf_modifyThread (marks_retainedIn tgid),
        marksOf_modifyThread (marks_retainedIn tgid), ensured]
  | leaves leaves empty counted => exact (marksOf_joined other).trans ensured
  | enters enters counted =>
      rw [marksOf_joined, marksOf_ensure (tabled_enroll sound.tabled),
        marksOf_enroll sound.tabled enters.absent]

end Plain

/-- A copied name is the same string. -/
theorem Comm.text_copy (name : Comm) : name.copy.text = name.text := by
  have short : name.text.length ≤ 16 := by
    have := (List.takeWhile_sublist (l := List.ofFn name) (· ≠ 0)).length_le
    rwa [List.length_ofFn] at this
  have padded : List.ofFn name.copy = name.text ++ List.replicate (16 - name.text.length) 0 := by
    apply List.ext_getElem
    · rw [List.length_ofFn, List.length_append, List.length_replicate]
      omega
    · intro index _ _
      rw [List.getElem_ofFn, copy, List.getElem_append]
      split
      · rename_i inside
        rw [List.getD_eq_getElem?_getD, List.getElem?_eq_getElem inside, Option.getD_some]
      · rename_i outside
        rw [List.getElem_replicate, List.getD_eq_getElem?_getD,
          List.getElem?_eq_none (Nat.not_lt.mp outside), Option.getD_none]
  rw [text, padded, List.takeWhile_append_of_pos]
  · rw [List.takeWhile_replicate]
    simp
  · intro byte member
    exact List.all_eq_true.mp List.all_takeWhile byte member

section Names

variable {store next : Store} {th : Ref Thread} {thread : Thread}

/-- The cache is flushed exactly if the sample has the name of the thread, and the
thread keeps its name in either case. -/
theorem resolveThread_named {st : Option Stacktrace} {uc : UnwindCtx} {created : Bool}
    {unwinder : Unwinder} {result : Resolved} (live : store.threads.get? th = some thread)
    (ran : resolveThread st uc created unwinder store th = .ok (result, next)) :
    (result.flushed = true ↔ uc.name.text = thread.name.text) ∧
      ∃ after, next.threads.get? th = some after ∧ after.name.text = thread.name.text := by
  obtain ⟨⟨prepared, ready⟩, prepare, rest⟩ := bind_eq_ok_iff.mp ran
  obtain ⟨⟨flushed, named⟩, comm, rest⟩ := bind_eq_ok_iff.mp rest
  obtain ⟨⟨⟨status, st'⟩, last⟩, entries, done⟩ := bind_eq_ok_iff.mp rest
  cases done
  obtain ⟨unprepared, unpreparedLive, prepare⟩ := bind_eq_ok_iff.mp prepare
  cases live.symm.trans (deref_eq_ok_iff.mp unpreparedLive)
  have readied : ∃ before, ready.threads.get? th = some before ∧ before.name = thread.name := by
    split at prepare
    · cases prepare
      exact ⟨thread, live, rfl⟩
    · cases prepare
      exact ⟨_, Heap.get?_modify_eq_some.mpr ⟨thread, live, rfl⟩, by rw [if_pos rfl]⟩
  obtain ⟨before, beforeLive, name⟩ := readied
  rw [congrArg Store.threads (onlyDsos_of_resolve entries), ← name]
  obtain ⟨found, foundLive, comm⟩ := bind_eq_ok_iff.mp comm
  cases beforeLive.symm.trans (deref_eq_ok_iff.mp foundLive)
  split at comm
  · rename_i same
    cases comm
    refine ⟨iff_of_true rfl same, _, Heap.get?_modify_eq_some.mpr ⟨before, beforeLive, rfl⟩, ?_⟩
    rw [if_pos rfl, ← same]
    exact uc.name.text_copy
  · rename_i different
    cases comm
    exact ⟨iff_of_false nofun different, before, beforeLive, rfl⟩

end Names

namespace Plain

/-- A sample that was resolved: its thread was found, and the rest is its work. -/
theorem resolved_cases {machine next : Plain} {st : Option Stacktrace} {uc : UnwindCtx}
    {created : Bool} {unwinder : Unwinder} {reply : Reply} (sound : Sound none machine)
    (stepped : Plain.step (.resolveCallchain st uc created unwinder) machine =
      .ok (reply, next)) :
    ∃ th middle thread result, Outcome machine uc.tgid uc.tid (.ok (some th, middle)) ∧
      Sound none middle ∧ middle.table uc.tid = some th ∧
      middle.store.threads.get? th = some thread ∧
      resolveThread st uc created unwinder middle.store th = .ok (result, next.store) ∧
      next.table = middle.table ∧ reply = .resolved result := by
  obtain ⟨⟨result, last⟩, resolved, done⟩ := bind_eq_ok_iff.mp stepped
  cases done
  rcases withThread_cases sound uc.tgid uc.tid with
    ⟨failure, -, failed⟩ | ⟨th, middle, outcome, middleSound, home, goes⟩
  · cases failed.symm.trans resolved
  · obtain ⟨⟨result, store⟩, worked, done⟩ := bind_eq_ok_iff.mp (goes.symm.trans resolved)
    cases done
    obtain ⟨found, thread, live, -⟩ := home
    exact ⟨th, middle, thread, result, outcome, middleSound, found, live, worked, rfl, rfl⟩

/-- A sample leaves its thread under the name it had. -/
theorem named_of_resolved {machine next : Plain} {st : Option Stacktrace} {uc : UnwindCtx}
    {created : Bool} {unwinder : Unwinder} {result : Resolved} (sound : Sound none machine)
    (stepped : Plain.step (.resolveCallchain st uc created unwinder) machine =
      .ok (.resolved result, next)) :
    (result.flushed = true ↔ uc.name.text = (machine.marksOf uc.tid).1.text) ∧
      (next.marksOf uc.tid).1.text = (machine.marksOf uc.tid).1.text := by
  obtain ⟨th, middle, thread, _, outcome, -, found, live, worked, table, same⟩ :=
    resolved_cases sound stepped
  cases same
  obtain ⟨flushed, after, afterLive, name⟩ := resolveThread_named live worked
  rw [← outcome.marksOf_eq sound, marksOf_of_live found live,
    marksOf_of_live (by rw [table, found]) afterLive]
  exact ⟨flushed, name⟩

end Plain

namespace Machine

variable {machine next : Machine} {plain : Plain} {tid : Pid} {name : List Byte}

/-- The name recorded for a tid, empty if there is no thread yet. -/
def Named (machine : Machine) (tid : Pid) (name : List Byte) : Prop :=
  (∃ th thread, machine.Holds th thread ∧ thread.tid = tid ∧ thread.name.text = name) ∨
    ((∀ th thread, machine.Holds th thread → thread.tid ≠ tid) ∧ name = [])

/-- The name of a thread is the same behind the hashed table. -/
theorem named_iff (matched : Matches machine plain) :
    machine.Named tid name ↔ (plain.marksOf tid).1.text = name := by
  unfold Named
  simp only [holds_iff matched]
  cases found : plain.table tid with
  | none =>
      rw [Plain.marksOf_of_absent found]
      have absent : ∀ th thread, plain.store.threads.get? th = some thread → thread.tid ≠ tid := by
        rintro th thread live rfl
        cases found.symm.trans (matched.2.listed th thread live)
      constructor
      · rintro (⟨th, thread, live, own, -⟩ | ⟨-, rfl⟩)
        · exact absurd own (absent th thread live)
        · rfl
      · rintro rfl
        exact .inr ⟨absent, rfl⟩
  | some ref =>
      obtain ⟨stored, storedLive, own⟩ := matched.2.tabled tid ref found
      rw [Plain.marksOf_of_live found storedLive]
      constructor
      · rintro (⟨th, thread, live, rfl, rfl⟩ | ⟨absent, -⟩)
        · obtain rfl : ref = th :=
            Option.some.inj (found.symm.trans (matched.2.listed th thread live))
          cases storedLive.symm.trans live
          rfl
        · exact absurd own (absent ref stored storedLive)
      · rintro rfl
        exact .inl ⟨ref, stored, storedLive, own, rfl⟩

/-- After the sample the thread has the name of the sample, and the cache of the
unwinder was flushed exactly if it had another name before. -/
structure Follows (machine : Machine) (uc : UnwindCtx) (result : Resolved) (next : Machine) :
    Prop where
  named : next.Named uc.tid uc.name.text
  flushed : ∀ before, machine.Named uc.tid before →
    (result.flushed = true ↔ uc.name.text ≠ before)

end Machine

/-- A sample leaves the name recorded for its thread, in a machine of a run. -/
theorem Machine.named_of_resolved {calls : List Call} {replies : List Reply}
    {machine next : Machine} (ran : runAll Machine.step calls Machine.new = .ok (replies, machine))
    {st : Option Stacktrace} {uc : UnwindCtx} {created : Bool} {unwinder : Unwinder}
    {result : Resolved}
    (resolved : Machine.step (.resolveCallchain st uc created unwinder) machine =
      .ok (.resolved result, next)) :
    ∃ name, machine.Named uc.tid name ∧ (result.flushed = true ↔ uc.name.text = name) ∧
      ∀ after, next.Named uc.tid after ↔ name = after := by
  obtain ⟨plain, matched, -⟩ := plain_run ran
  have agree := agree_step (.resolveCallchain st uc created unwinder) machine plain matched
  rw [resolved] at agree
  obtain ⟨⟨reply, plainNext⟩, stepped, same, matchedNext⟩ := agree.ok_left
  cases same
  obtain ⟨flushed, kept⟩ := Plain.named_of_resolved matched.2 stepped
  refine ⟨_, (named_iff matched).mpr rfl, flushed, fun after => ?_⟩
  rw [named_iff matchedNext, kept]

/-- No sample of any run is followed: a thread has the name of the sample afterwards
only if it had it before, and then the cache is flushed all the same. -/
theorem samples_never_follow {calls : List Call} {replies : List Reply} {machine next : Machine}
    (ran : runAll Machine.step calls Machine.new = .ok (replies, machine))
    {st : Option Stacktrace} {uc : UnwindCtx} {created : Bool} {unwinder : Unwinder}
    {result : Resolved}
    (resolved : Machine.step (.resolveCallchain st uc created unwinder) machine =
      .ok (.resolved result, next)) : ¬ Machine.Follows machine uc result next := by
  obtain ⟨name, before, flushed, after⟩ := Machine.named_of_resolved ran resolved
  rintro ⟨named, flushes⟩
  have same := (after _).mp named
  exact (flushes name before).mp (flushed.mpr same.symm) same.symm

/-- A sample of the shell. -/
def UnwindCtx.shell (tgid tid : Pid) : UnwindCtx :=
  ⟨0, tid, tgid, fun _ => 0, fun index => [0x73, 0x68].getD index.val 0, 0, fun _ => 0⟩

theorem samples_never_follow_shell :
    ∃ replies machine result next, runAll Machine.step [.mapLs 1 1] Machine.new =
        .ok (replies, machine) ∧
      Machine.step (.resolveCallchain none (.shell 1 1) true ⟨[], 0, []⟩) machine =
        .ok (.resolved result, next) ∧
      ¬ Machine.Follows machine (.shell 1 1) result next := by
  have run : ∃ replies machine result next, runAll Machine.step [.mapLs 1 1] Machine.new =
        .ok (replies, machine) ∧
      Machine.step (.resolveCallchain none (.shell 1 1) true ⟨[], 0, []⟩) machine =
        .ok (.resolved result, next) := ⟨_, _, _, _, rfl, rfl⟩
  obtain ⟨replies, machine, result, next, ran, resolved⟩ := run
  exact ⟨replies, machine, result, next, ran, resolved, samples_never_follow ran resolved⟩

/-- The first sample of a new thread does not give it its name, nor is the cache
flushed. -/
theorem shell_not_named :
    ∃ result next, Machine.step (.resolveCallchain none (.shell 1 1) true ⟨[], 0, []⟩)
        Machine.new = .ok (.resolved result, next) ∧
      result.flushed = false ∧ ¬ next.Named 1 (UnwindCtx.shell 1 1).name.text ∧
      ¬ Machine.Follows Machine.new (.shell 1 1) result next := by
  have run : ∃ result next, Machine.step (.resolveCallchain none (.shell 1 1) true ⟨[], 0, []⟩)
      Machine.new = .ok (.resolved result, next) ∧ result.flushed = false := ⟨_, _, rfl, rfl⟩
  obtain ⟨result, next, resolved, notFlushed⟩ := run
  have start : runAll Machine.step [] Machine.new = .ok ([], Machine.new) := rfl
  obtain ⟨name, before, flushed, after⟩ := Machine.named_of_resolved start resolved
  have other : ¬ next.Named 1 (UnwindCtx.shell 1 1).name.text := by
    intro named
    rw [(after _).mp named, notFlushed] at flushed
    cases flushed.mpr rfl
  exact ⟨result, next, resolved, notFlushed, other, fun follows => other follows.named⟩

end DwBpf
