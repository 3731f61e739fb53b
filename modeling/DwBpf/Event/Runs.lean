import DwBpf.Event.Steady
import DwBpf.Machine.Refinement

/-! # Runs of the library

Calls of the public interface on the hashed table of the source and on a plain
table agree (`DwBpf.Machine.agree_step`), so that whatever holds in every state
that runs over plain tables reach holds of the source's machine
(`DwBpf.Machine.runs_invariant`).
-/

namespace DwBpf

namespace Plain

variable {machine next : Plain} {tgid tid : Pid} {th leader : Ref Thread} {thread : Thread}

/-- The table has the thread `th` under `tid`, and it is in the group `tgid`. -/
def Home (machine : Plain) (tgid tid : Pid) (th : Ref Thread) : Prop :=
  machine.table tid = some th ∧
    ∃ thread, machine.store.threads.get? th = some thread ∧ thread.tgid = tgid

theorem Home.modifyThread {change : Thread → Thread} {ref : Ref Thread}
    (home : Home machine tgid tid th)
    (keeps : ∀ thread, thread.tgid = tgid → (change thread).tgid = tgid) :
    Home (machine.modifyThread ref change) tgid tid th := by
  obtain ⟨found, thread, live, group⟩ := home
  refine ⟨found, _, Heap.get?_modify_eq_some.mpr ⟨thread, live, rfl⟩, ?_⟩
  split
  · exact keeps thread group
  · exact group

theorem home_modifyThread {change : Thread → Thread} (found : machine.table tid = some th)
    (live : machine.store.threads.get? th = some thread)
    (enters : ∀ thread, (change thread).tgid = tgid) :
    Home (machine.modifyThread th change) tgid tid th := by
  refine ⟨found, _, Heap.get?_modify_eq_some.mpr ⟨thread, live, rfl⟩, ?_⟩
  rw [if_pos rfl]
  exact enters thread

theorem home_joined (found : machine.table tid = some th)
    (live : machine.store.threads.get? th = some thread) (leader : Ref Thread) (new : Ref Maps) :
    Home (machine.joined tgid th leader new) tgid tid th := by
  have joins : Home (State.modifyThread ⟨machine.store.modifyMaps new fun maps =>
      { maps with refcnt := maps.refcnt + 1 }, machine.table⟩ th fun thread =>
        { retainedIn tgid thread with maps := some new }) tgid tid th :=
    home_modifyThread found live fun _ => rfl
  exact joins.modifyThread fun _ _ => rfl

/-- A lookup that returns gives the thread asked for, in the group asked for. -/
theorem Outcome.home {found : Option (Ref Thread)}
    (outcome : Outcome machine tgid tid (.ok (found, next))) (sound : Sound none machine) :
    ∃ th, found = some th ∧ Home next tgid tid th := by
  cases outcome with
  | @leader th self led =>
      subst self
      obtain ⟨thread, live, -⟩ := (sound.ensure tid).tabled tid th led
      exact ⟨th, rfl, home_modifyThread led live fun _ => rfl⟩
  | @stays th _ member inTable live stays =>
      exact ⟨th, rfl, home_modifyThread inTable live fun _ => rfl⟩
  | @shares th _ _ _ moves shares =>
      have inTable : (machine.ensure tgid).table tid = some th :=
        (ensure_table_of_ne moves.member).trans moves.found
      have regrouped : Home ((machine.ensure tgid).modifyThread th (retainedIn tgid)) tgid tid th :=
        home_modifyThread inTable (get?_ensure moves.live tgid) fun _ => rfl
      exact ⟨th, rfl, regrouped.modifyThread fun _ _ => rfl⟩
  | @leaves th _ _ _ _ _ leaves empty counted =>
      obtain ⟨thread, moves, -⟩ := leaves.moves
      have inTable : (machine.ensure tgid).table tid = some th :=
        (ensure_table_of_ne moves.member).trans moves.found
      exact ⟨th, rfl, home_joined inTable (get?_ensure moves.live tgid) _ _⟩
  | enters enters counted =>
      have inTable : ((machine.enroll tgid tid).ensure tgid).table tid =
          some machine.store.threads.nextRef :=
        (ensure_table_of_ne enters.member).trans (Function.update_self ..)
      exact ⟨_, rfl, home_joined inTable (get?_ensure (Heap.get?_alloc_nextRef _ _) tgid) _ _⟩

/-- Looking up a thread that is in the group takes a reference and nothing else. -/
theorem findnewThread_of_home (sound : Sound none machine) (home : Home machine tgid tid th) :
    findnewThread machine tgid tid = .ok (some th, machine.modifyThread th (retainedIn tgid)) := by
  have outcome := findnewThread_outcome sound.valid tgid tid
  obtain ⟨found, thread, live, group⟩ := home
  have notMoves : ∀ {ref leader : Ref Thread} {moving object : Thread},
      ¬ Moves machine tgid tid ref moving leader object := by
    intro ref leader moving object moves
    obtain rfl : ref = th := Option.some.inj (moves.found.symm.trans found)
    obtain rfl : moving = thread := Option.some.inj (moves.live.symm.trans live)
    exact moves.moves group
  generalize findnewThread machine tgid tid = result at outcome
  cases outcome with
  | leader self led =>
      subst self
      rw [ensure_of_some found] at led ⊢
      obtain rfl := Option.some.inj (led.symm.trans found)
      rfl
  | stays member inTable wasLive stays =>
      obtain rfl := Option.some.inj (inTable.symm.trans found)
      rfl
  | shares moves shares => exact absurd moves notMoves
  | leaves leaves empty counted =>
      obtain ⟨_, moves, -⟩ := leaves.moves
      exact absurd moves notMoves
  | enters enters counted => cases found.symm.trans enters.absent
  | broken leaves occupied =>
      obtain ⟨_, moves, -⟩ := leaves.moves
      exact absurd moves notMoves
  | leavesWrapped leaves empty wrapped =>
      obtain ⟨_, moves, -⟩ := leaves.moves
      exact absurd moves notMoves
  | entersWrapped enters wrapped => cases found.symm.trans enters.absent

end Plain

namespace Machine

variable {machine : Machine} {plain : Plain}

/-- A machine between two calls, and a sound machine with a plain table. -/
def Matches (machine : Machine) (plain : Plain) : Prop :=
  Represents (fun _ => 0) machine plain ∧ Plain.Sound none plain

theorem matches_new : Matches Machine.new Plain.new := by
  refine ⟨⟨rfl, nofun, ?_, fun _ => .nil, fun _ => rfl, nofun⟩, Plain.sound_new⟩
  intro index th
  simp [Machine.new, Plain.new]

/-- Work that leaves the threads and the maps they share alone. -/
def Work (α : Type) (work : Store → Ref Thread → Except Fault (α × Store)) : Prop :=
  ∀ store th thread result next, store.threads.get? th = some thread → thread.node = .tree →
    work store th = .ok (result, next) → store.Steady next

/-- What is done with the thread that was found is the same behind both tables. -/
theorem agree_withThread {α : Type} {work : Store → Ref Thread → Except Fault (α × Store)}
    (steady : Work α work) (matched : Matches machine plain) (tgid tid : Pid) :
    Agree (Results α Matches) (withThread findnewThread machine tgid tid work)
      (withThread Plain.findnewThread plain tgid tid work) := by
  have outcome := Plain.findnewThread_outcome matched.2.valid tgid tid
  have agree := agree_findnewThread matched.1 matched.2.valid tgid tid
  unfold withThread
  refine agree.bind_of_ok ?_
  rintro ⟨found, after⟩ ⟨found', after'⟩ - looked ⟨same, represents⟩
  obtain rfl : found = found' := same
  replace represents : Represents _ after after' := represents
  rw [looked] at outcome
  have sound := outcome.sound matched.2
  obtain ⟨th, rfl, inTable, thread, live, -⟩ := outcome.home matched.2
  have linked := sound.linked th thread live
  simp only [represents.store]
  cases ran : work after'.store th with
  | error failure => rfl
  | ok outcome =>
      obtain ⟨result, store⟩ := outcome
      have kept := steady _ th thread result store live linked ran
      have keeps := represents.keeps (represents.store ▸ kept.keeps)
      exact ⟨rfl, keeps, sound.steady kept⟩

theorem work_recordMap (event : MmapEvent) (created : Bool) :
    Work Unit (recordMap event created) :=
  fun _ _ _ _ _ live linked ran => steady_recordMap live linked ran

theorem work_resolveThread (st : Option Stacktrace) (uc : UnwindCtx) (created : Bool)
    (unwinder : Unwinder) : Work Resolved (resolveThread st uc created unwinder) :=
  fun _ _ _ _ _ _ _ ran => (quiet_resolveThread ran).steady

theorem work_iterateThread (callback : Nat → PhdrInfo → Int) :
    Work (Int × List PhdrInfo) (iterateThread callback) :=
  fun _ _ _ _ _ _ _ ran => (quiet_iterateThread ran).steady

theorem agree_prepareLines (tgid tid : Pid) (created : Bool) (lines : List (List Char))
    (scratch : Scratch) (matched : Matches machine plain) :
    Agree Matches (prepareLines findnewThread tgid tid created lines scratch machine)
      (prepareLines Plain.findnewThread tgid tid created lines scratch plain) := by
  induction lines generalizing scratch machine plain with
  | nil => exact matched
  | cons bf rest ih =>
      simp only [prepareLines]
      cases scratch.line bf tgid tid with
      | error failure => rfl
      | ok read =>
          obtain ⟨event, scratch⟩ := read
          cases event with
          | none => exact ih scratch matched
          | some event =>
              refine (agree_withThread (work_recordMap event created) matched _ _).bind ?_
              rintro ⟨_, after⟩ ⟨_, after'⟩ ⟨-, afterMatches⟩
              exact ih scratch afterMatches

/-- The library does the same over both kinds of tables. -/
theorem agree_step (call : Call) (machine : Machine) (plain : Plain)
    (matched : Matches machine plain) :
    Agree (Results Reply Matches) (Machine.step call machine) (Plain.step call plain) := by
  cases call with
  | threadMap tgid tid text scratch created =>
      cases text with
      | none => exact ⟨rfl, matched⟩
      | some text =>
          simp only [Machine.step, Plain.step, Call.step, threadMap, bind_assoc]
          refine (agree_prepareLines tgid tid created _ scratch matched).bind ?_
          intro after after' afterMatches
          exact ⟨rfl, afterMatches⟩
  | resolveCallchain st uc created unwinder =>
      refine (agree_withThread (work_resolveThread st uc created unwinder) matched _ _).bind ?_
      rintro ⟨result, after⟩ ⟨result', after'⟩ ⟨rfl, afterMatches⟩
      exact ⟨rfl, afterMatches⟩
  | dlIteratePhdr tgid callback =>
      refine (agree_withThread (work_iterateThread callback) matched _ _).bind ?_
      rintro ⟨⟨status, infos⟩, after⟩ ⟨⟨status', infos'⟩, after'⟩ ⟨same, afterMatches⟩
      cases same
      exact ⟨rfl, afterMatches⟩

/-- What holds at the start, and is kept by the calls over plain tables that meet a
condition, holds wherever a run of such calls arrives. -/
theorem runs_invariant (condition : Store → Call → Prop) {invariant : Plain → Prop}
    {start : Machine} (matched : Matches start plain) (holds : invariant plain)
    (kept : ∀ call plain reply next, Plain.Sound none plain → invariant plain →
      condition plain.store call → Plain.step call plain = .ok (reply, next) → invariant next)
    {calls : List Call} {replies : List Reply} {machine : Machine}
    (each : EachStep Machine.step (fun machine call => condition machine.store call) calls start)
    (ran : runAll Machine.step calls start = .ok (replies, machine)) :
    ∃ plain, Matches machine plain ∧ invariant plain := by
  have stepKept : ∀ call before reply after, (∃ plain, Matches before plain ∧ invariant plain) →
      condition before.store call →
      Machine.step call before = .ok (reply, after) →
      ∃ plain, Matches after plain ∧ invariant plain := by
    rintro call before reply after ⟨plain, matched, holds⟩ meets stepped
    have agree := agree_step call before plain matched
    rw [stepped] at agree
    obtain ⟨⟨reply', next⟩, plainStepped, -, nextMatches⟩ := agree.ok_left
    rw [matched.1.store] at meets
    exact ⟨next, nextMatches, kept call plain reply' next matched.2 holds meets plainStepped⟩
  exact runAll_invariant stepKept ⟨plain, matched, holds⟩ each ran

/-- What every call over plain tables keeps holds wherever a run arrives. -/
theorem runs_keep {invariant : Plain → Prop} {start : Machine} (matched : Matches start plain)
    (holds : invariant plain)
    (kept : ∀ call plain reply next, Plain.Sound none plain → invariant plain →
      Plain.step call plain = .ok (reply, next) → invariant next)
    {calls : List Call} {replies : List Reply} {machine : Machine}
    (ran : runAll Machine.step calls start = .ok (replies, machine)) :
    ∃ plain, Matches machine plain ∧ invariant plain :=
  runs_invariant (fun _ _ => True) matched holds
    (fun call plain reply next sound before _ stepped =>
      kept call plain reply next sound before stepped)
    (eachStep_of_forall (fun _ _ _ => trivial) start) ran

/-- A run that fails does so in a call over a sound plain table. -/
theorem runs_error (condition : Store → Call → Prop) {calls : List Call} {failure : Fault}
    (each : EachStep Machine.step (fun machine call => condition machine.store call) calls
      Machine.new)
    (failed : runAll Machine.step calls Machine.new = .error failure) :
    ∃ call plain, Plain.Sound none plain ∧ condition plain.store call ∧
      Plain.step call plain = .error failure := by
  have stepKept : ∀ call before reply after, (∃ plain, Matches before plain) →
      condition before.store call →
      Machine.step call before = .ok (reply, after) → ∃ plain, Matches after plain := by
    rintro call before reply after ⟨plain, matched⟩ - stepped
    have agree := agree_step call before plain matched
    rw [stepped] at agree
    obtain ⟨⟨reply', next⟩, -, -, nextMatches⟩ := agree.ok_left
    exact ⟨next, nextMatches⟩
  obtain ⟨call, before, ⟨plain, matched⟩, meets, stepFailed⟩ :=
    runAll_error stepKept ⟨_, matches_new⟩ each failed
  have agree := agree_step call before plain matched
  rw [stepFailed] at agree
  rw [matched.1.store] at meets
  exact ⟨call, plain, matched.2, meets, agree.error_left⟩

/-- The thread is in one of the buckets of the table. -/
def Holds (machine : Machine) (th : Ref Thread) (thread : Thread) : Prop :=
  (∃ index, th ∈ (machine.table index).entries.toList) ∧
    machine.store.threads.get? th = some thread

theorem holds_iff {th : Ref Thread} {thread : Thread} (matched : Matches machine plain) :
    machine.Holds th thread ↔ plain.store.threads.get? th = some thread := by
  rw [Holds, matched.1.store, and_iff_right_iff_imp]
  intro live
  exact ⟨bucket thread.tid,
    (matched.1.member _ th).mpr ⟨thread.tid, rfl, matched.2.listed th thread live⟩⟩

end Machine

end DwBpf
