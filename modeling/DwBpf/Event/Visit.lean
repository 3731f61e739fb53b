import DwBpf.Event.Runs

/-! # The visits of a call

A call visits one thread: it looks the thread up and works on it, several times
if it records maps. Only the first visit can find the thread in another group
than the call asks for, so a condition on lookups that threads meet in their own
groups need only hold for the first (`DwBpf.Plain.eachStep_visits`), and what
such visits keep, the call keeps (`DwBpf.Plain.step_invariant`).
-/

namespace DwBpf

/-- What a call does one after another: it visits a thread, or fails on a line
that its buffers cannot hold. -/
inductive Visit where
  | fault (failure : Fault)
  | record (event : MmapEvent) (created : Bool)
  | resolve (st : Option Stacktrace) (uc : UnwindCtx) (created : Bool) (unwinder : Unwinder)
  | iterate (tgid : Pid) (callback : Nat → PhdrInfo → Int)

namespace Visit

/-- The thread that is looked up. -/
def pair? : Visit → Option (Pid × Pid)
  | .fault _ => none
  | .record event _ => some (event.tgid, event.tid)
  | .resolve _ uc _ _ => some (uc.tgid, uc.tid)
  | .iterate tgid _ => some (tgid, tgid)

/-- The work on the thread. -/
def work : Visit → Store → Ref Thread → Except Fault (Unit × Store)
  | .fault failure, _, _ => .error failure
  | .record event created, store, th => recordMap event created store th
  | .resolve st uc created unwinder, store, th => do
      let (_, store) ← resolveThread st uc created unwinder store th
      return ((), store)
  | .iterate _ callback, store, th => do
      let (_, store) ← iterateThread callback store th
      return ((), store)

def step {τ : Type} (lookup : Lookup τ) : Visit → State τ → Except Fault (Unit × State τ)
  | .fault failure, _ => .error failure
  | .record event created, machine =>
      withThread lookup machine event.tgid event.tid (work (.record event created))
  | .resolve st uc created unwinder, machine =>
      withThread lookup machine uc.tgid uc.tid (work (.resolve st uc created unwinder))
  | .iterate tgid callback, machine =>
      withThread lookup machine tgid tgid (work (.iterate tgid callback))

/-- Only recording a map changes more than the data of dsos and of the thread. -/
theorem quiet_or_record {visit : Visit} {store next : Store} {th : Ref Thread} {done : Unit}
    (ran : visit.work store th = .ok (done, next)) :
    store.Quiet next ∨ ∃ event created, visit = .record event created ∧
      recordMap event created store th = .ok ((), next) := by
  cases visit with
  | fault failure => cases ran
  | record event created => exact .inr ⟨event, created, rfl, ran⟩
  | resolve st uc created unwinder =>
      obtain ⟨⟨result, after⟩, resolve, done⟩ := bind_eq_ok_iff.mp ran
      cases done
      exact .inl (quiet_resolveThread resolve)
  | iterate tgid callback =>
      obtain ⟨⟨result, after⟩, iterate, done⟩ := bind_eq_ok_iff.mp ran
      cases done
      exact .inl (quiet_iterateThread iterate)

theorem work_steady (visit : Visit) : Machine.Work Unit visit.work := by
  intro store th thread done next live linked ran
  rcases quiet_or_record ran with quiet | ⟨event, created, -, recorded⟩
  · exact quiet.steady
  · exact steady_recordMap live linked recorded

end Visit

/-- The visits of the lines of a text. -/
def visitLines (tgid tid : Pid) (created : Bool) : List (List Char) → Scratch → List Visit
  | [], _ => []
  | bf :: rest, scratch =>
      match scratch.line bf tgid tid with
      | .error failure => [.fault failure]
      | .ok (none, scratch) => visitLines tgid tid created rest scratch
      | .ok (some event, scratch) =>
          .record event created :: visitLines tgid tid created rest scratch

/-- The visits of a call. -/
def Call.visits : Call → List Visit
  | .threadMap _ _ none _ _ => []
  | .threadMap tgid tid (some text) scratch created =>
      visitLines tgid tid created (Scan.chunks bufsiz text []) scratch
  | .resolveCallchain st uc created unwinder => [.resolve st uc created unwinder]
  | .dlIteratePhdr tgid callback => [.iterate tgid callback]

section Visits

variable {τ : Type} (lookup : Lookup τ)

/-- The loop over the lines makes the visits that the lines ask for. -/
theorem prepareLines_eq_visits (tgid tid : Pid) (created : Bool) (lines : List (List Char))
    (scratch : Scratch) (machine : State τ) :
    prepareLines lookup tgid tid created lines scratch machine =
      (runAll (Visit.step lookup) (visitLines tgid tid created lines scratch) machine).map
        Prod.snd := by
  induction lines generalizing scratch machine with
  | nil => rfl
  | cons bf rest ih =>
      simp only [prepareLines, visitLines]
      cases scratch.line bf tgid tid with
      | error failure => rfl
      | ok read =>
          obtain ⟨event, scratch⟩ := read
          cases event with
          | none => exact ih scratch machine
          | some event =>
              simp only [ok_bind, runAll]
              change (processMmap lookup machine event created >>= _) =
                Except.map Prod.snd (processMmap lookup machine event created >>= _)
              cases processMmap lookup machine event created with
              | error failure => rfl
              | ok result =>
                  simp only [ok_bind, ih]
                  cases runAll (Visit.step lookup) (visitLines tgid tid created rest scratch)
                    result.2 with
                  | error failure => rfl
                  | ok last => rfl

/-- A call fails as its visits do, and leaves the machine as they do. -/
theorem step_eq_visits (call : Call) (machine : State τ) :
    (call.step lookup machine).map Prod.snd =
      (runAll (Visit.step lookup) call.visits machine).map Prod.snd := by
  cases call with
  | threadMap tgid tid text scratch created =>
      cases text with
      | none => rfl
      | some text =>
          rw [Call.visits, ← prepareLines_eq_visits, Call.step, threadMap]
          cases prepareLines lookup tgid tid created _ scratch machine with
          | error failure => rfl
          | ok last => rfl
  | resolveCallchain st uc created unwinder =>
      simp only [Call.visits, Call.step, resolveCallchain, runAll, Visit.step, withThread]
      cases lookup machine uc.tgid uc.tid with
      | error failure => rfl
      | ok looked =>
          obtain ⟨found, after⟩ := looked
          cases found with
          | none => rfl
          | some th =>
              simp only [ok_bind, Visit.work]
              cases resolveThread st uc created unwinder after.store th with
              | error failure => rfl
              | ok result => rfl
  | dlIteratePhdr tgid callback =>
      simp only [Call.visits, Call.step, dlIteratePhdr, runAll, Visit.step, withThread]
      cases lookup machine tgid tgid with
      | error failure => rfl
      | ok looked =>
          obtain ⟨found, after⟩ := looked
          cases found with
          | none => rfl
          | some th =>
              simp only [ok_bind, Visit.work]
              cases iterateThread callback after.store th with
              | error failure => rfl
              | ok result => rfl

/-- A call that returns has made all of its visits. -/
theorem visits_of_step {call : Call} {machine next : State τ} {reply : Reply}
    (stepped : call.step lookup machine = .ok (reply, next)) :
    ∃ dones, runAll (Visit.step lookup) call.visits machine = .ok (dones, next) := by
  have visits := step_eq_visits lookup call machine
  rw [stepped] at visits
  cases ran : runAll (Visit.step lookup) call.visits machine with
  | error failure =>
      rw [ran] at visits
      cases visits
  | ok result =>
      obtain ⟨dones, last⟩ := result
      rw [ran] at visits
      obtain rfl : next = last := Except.ok.inj visits
      exact ⟨dones, rfl⟩

end Visits

/-- The pair that the visits of a call look up. -/
def Call.pair : Call → Pid × Pid
  | .threadMap tgid tid _ _ _ => (tgid, tid)
  | .resolveCallchain _ uc _ _ => (uc.tgid, uc.tid)
  | .dlIteratePhdr tgid _ => (tgid, tgid)

/-- Whether a call looks up its thread at all: recording the maps of a process
does so at the first executable line. -/
def Call.looks (call : Call) : Bool := (call.visits.head?.bind Visit.pair?).isSome

theorem Scratch.pair_of_line {scratch scratch' : Scratch} {bf : List Char} {tgid tid : Pid}
    {event : MmapEvent} (read : scratch.line bf tgid tid = .ok (some event, scratch')) :
    (event.tgid, event.tid) = (tgid, tid) := by
  obtain ⟨⟨assigned, execname⟩, -, rest⟩ := bind_eq_ok_iff.mp read
  dsimp only at rest
  split at rest
  · cases rest
  · split at rest
    · cases rest
    · cases rest
      rfl

/-- A line fails only where it does not fit the buffers. -/
theorem Scratch.fault_of_line {scratch : Scratch} {bf : List Char} {tgid tid : Pid}
    {failure : Fault} (read : scratch.line bf tgid tid = .error failure) :
    failure = .outOfBounds := by
  unfold Scratch.line Scratch.assign at read
  dsimp only at read
  split at read
  · cases read
    rfl
  · rw [ok_bind] at read
    dsimp only at read
    split at read
    · cases read
    · split at read
      · cases read
      · cases read

/-- A line records a map for the thread, or does not fit the buffers. -/
theorem visitLines_cases {tgid tid : Pid} {created : Bool} {lines : List (List Char)}
    {scratch : Scratch} {visit : Visit}
    (member : visit ∈ visitLines tgid tid created lines scratch) :
    visit = .fault .outOfBounds ∨
      ∃ event, visit = .record event created ∧ (event.tgid, event.tid) = (tgid, tid) := by
  induction lines generalizing scratch with
  | nil => cases member
  | cons bf rest ih =>
      simp only [visitLines] at member
      split at member
      · rename_i read
        rw [List.mem_singleton.mp member, Scratch.fault_of_line read]
        exact .inl rfl
      · exact ih member
      · rename_i read
        rcases List.mem_cons.mp member with same | later
        · exact .inr ⟨_, same, Scratch.pair_of_line read⟩
        · exact ih later

namespace Call

variable {call : Call} {visit : Visit} {pair : Pid × Pid}

theorem visits_threadMap_cases {tgid tid : Pid} {text : Option (List Char)} {scratch : Scratch}
    {created : Bool} (member : visit ∈ (threadMap tgid tid text scratch created).visits) :
    visit = .fault .outOfBounds ∨
      ∃ event, visit = .record event created ∧ (event.tgid, event.tid) = (tgid, tid) := by
  cases text with
  | none => cases member
  | some text => exact visitLines_cases member

theorem fault_of_mem {failure : Fault} (member : .fault failure ∈ call.visits) :
    failure = .outOfBounds := by
  cases call with
  | threadMap tgid tid text scratch created =>
      rcases visits_threadMap_cases member with same | ⟨event, other, -⟩
      · cases same
        rfl
      · cases other
  | resolveCallchain st uc created unwinder => cases List.mem_singleton.mp member
  | dlIteratePhdr tgid callback => cases List.mem_singleton.mp member

/-- All visits of a call are of one thread. -/
theorem pair_of_mem (member : visit ∈ call.visits) (looks : visit.pair? = some pair) :
    pair = call.pair := by
  cases call with
  | threadMap tgid tid text scratch created =>
      rcases visits_threadMap_cases member with rfl | ⟨event, rfl, same⟩
      · cases looks
      · rw [← Option.some.inj looks]
        exact same
  | resolveCallchain st uc created unwinder =>
      rw [List.mem_singleton.mp member] at looks
      exact (Option.some.inj looks).symm
  | dlIteratePhdr tgid callback =>
      rw [List.mem_singleton.mp member] at looks
      exact (Option.some.inj looks).symm

end Call

namespace Plain

variable {machine next : Plain} {tgid tid : Pid} {th : Ref Thread} {visit : Visit} {call : Call}
  {failure : Fault} {done : Unit}

/-- A visit that returned: the lookup left the machine `middle` with the thread
`th`, and the work on it did the rest. -/
structure Visited (visit : Visit) (machine : Plain) (tgid tid : Pid) (th : Ref Thread)
    (middle next : Plain) : Prop where
  pair : visit.pair? = some (tgid, tid)
  outcome : Outcome machine tgid tid (.ok (some th, middle))
  sound : Sound none middle
  home : Home middle tgid tid th
  worked : visit.work middle.store th = .ok ((), next.store)
  table : next.table = middle.table

/-- The lookup fails, or the work is done on the thread that it returns, which is at home
by then. -/
theorem withThread_cases {α : Type} {work : Store → Ref Thread → Except Fault (α × Store)}
    (sound : Sound none machine) (tgid tid : Pid) :
    (∃ failure, Outcome machine tgid tid (.error failure) ∧
      withThread findnewThread machine tgid tid work = .error failure) ∨
    ∃ th middle, Outcome machine tgid tid (.ok (some th, middle)) ∧ Sound none middle ∧
      Home middle tgid tid th ∧
      withThread findnewThread machine tgid tid work = (do
        let (result, store) ← work middle.store th
        return (result, ⟨store, middle.table⟩)) := by
  have outcome := findnewThread_outcome sound.valid tgid tid
  unfold withThread
  generalize findnewThread machine tgid tid = looked at outcome
  cases looked with
  | error failure => exact .inl ⟨failure, outcome, rfl⟩
  | ok result =>
      obtain ⟨found, middle⟩ := result
      obtain ⟨th, rfl, home⟩ := outcome.home sound
      exact .inr ⟨th, middle, outcome, outcome.sound sound, home, rfl⟩

theorem step_eq_withThread (looks : visit.pair? = some (tgid, tid)) :
    visit.step findnewThread machine = withThread findnewThread machine tgid tid visit.work := by
  cases visit with
  | fault failure => cases looks
  | record event created => cases looks; rfl
  | resolve st uc created unwinder => cases looks; rfl
  | iterate tgid callback => cases looks; rfl

/-- A visit that returns has visited a thread. -/
theorem visit_cases (sound : Sound none machine)
    (ran : visit.step findnewThread machine = .ok (done, next)) :
    ∃ tgid tid th middle, Visited visit machine tgid tid th middle next := by
  cases looks : visit.pair? with
  | none =>
      cases visit with
      | fault failure => cases ran
      | _ => cases looks
  | some pair =>
      obtain ⟨tgid, tid⟩ := pair
      rw [step_eq_withThread looks] at ran
      rcases withThread_cases sound tgid tid with
        ⟨failure, -, failed⟩ | ⟨th, middle, outcome, middleSound, home, goes⟩
      · cases failed.symm.trans ran
      · obtain ⟨⟨_, store⟩, worked, done⟩ := bind_eq_ok_iff.mp (goes.symm.trans ran)
        cases done
        exact ⟨tgid, tid, th, middle, looks, outcome, middleSound, home, worked, rfl⟩

/-- A visit fails before the lookup, in it, or in its work. -/
theorem visit_error (sound : Sound none machine)
    (failed : visit.step findnewThread machine = .error failure) :
    visit = .fault failure ∨ ∃ tgid tid, visit.pair? = some (tgid, tid) ∧
      (Outcome machine tgid tid (.error failure) ∨
        ∃ th middle, Outcome machine tgid tid (.ok (some th, middle)) ∧ Sound none middle ∧
          Home middle tgid tid th ∧ visit.work middle.store th = .error failure) := by
  cases looks : visit.pair? with
  | none =>
      cases visit with
      | fault failure' => cases failed; exact .inl rfl
      | _ => cases looks
  | some pair =>
      obtain ⟨tgid, tid⟩ := pair
      refine .inr ⟨tgid, tid, rfl, ?_⟩
      rw [step_eq_withThread looks] at failed
      rcases withThread_cases sound tgid tid with
        ⟨failure', outcome, same⟩ | ⟨th, middle, outcome, middleSound, home, goes⟩
      · cases same.symm.trans failed
        exact .inl outcome
      · refine .inr ⟨th, middle, outcome, middleSound, home, ?_⟩
        rw [goes] at failed
        cases worked : visit.work middle.store th with
        | error failure' =>
            rw [worked] at failed
            cases failed
            rfl
        | ok result =>
            rw [worked] at failed
            cases failed

theorem Visited.steady {middle : Plain} (visited : Visited visit machine tgid tid th middle next) :
    middle.store.Steady next.store := by
  obtain ⟨-, thread, live, -⟩ := visited.home
  exact visit.work_steady _ th thread () _ live (visited.sound.linked th thread live) visited.worked

theorem Visited.sound_next {middle : Plain}
    (visited : Visited visit machine tgid tid th middle next) : Sound none next := by
  obtain ⟨store, table⟩ := next
  rw [show table = middle.table from visited.table]
  exact visited.sound.steady visited.steady

theorem Visited.home_next {middle : Plain}
    (visited : Visited visit machine tgid tid th middle next) : Home next tgid tid th := by
  obtain ⟨inTable, thread, live, group⟩ := visited.home
  obtain ⟨after, afterLive, core⟩ := visited.steady.live live
  simp only [Thread.core, Prod.mk.injEq] at core
  exact ⟨by rw [visited.table, inTable], after, afterLive, core.1.trans group⟩

section Condition

variable {condition : Plain → Pid → Pid → Prop}

/-- A thread that is at home stays there over all visits of a call. -/
theorem eachStep_of_home
    (ofHome : ∀ plain tgid tid th, Sound none plain → Home plain tgid tid th →
      condition plain tgid tid)
    {visits : List Visit}
    (same : ∀ visit ∈ visits, ∀ pair, visit.pair? = some pair → pair = (tgid, tid))
    (sound : Sound none machine) (home : Home machine tgid tid th) :
    EachStep (Visit.step findnewThread)
      (fun plain visit => ∀ tgid tid, visit.pair? = some (tgid, tid) → condition plain tgid tid)
      visits machine := by
  induction visits generalizing machine th with
  | nil => trivial
  | cons visit visits ih =>
      refine ⟨?_, ?_⟩
      · intro tgid' tid' looks
        cases same visit (List.mem_cons_self ..) _ looks
        exact ofHome machine tgid tid th sound home
      · intro done next ran
        obtain ⟨tgid', tid', th', middle, visited⟩ := visit_cases sound ran
        cases same visit (List.mem_cons_self ..) _ visited.pair
        exact ih (fun later member => same later (List.mem_cons_of_mem _ member))
          visited.sound_next visited.home_next

/-- A condition on lookups that every thread meets in its own group holds for all
visits of a call if it holds for the first. -/
theorem eachStep_visits
    (ofHome : ∀ plain tgid tid th, Sound none plain → Home plain tgid tid th →
      condition plain tgid tid)
    (sound : Sound none machine)
    (first : call.looks = true → condition machine call.pair.1 call.pair.2) :
    EachStep (Visit.step findnewThread)
      (fun plain visit => ∀ tgid tid, visit.pair? = some (tgid, tid) → condition plain tgid tid)
      call.visits machine := by
  have same : ∀ visit ∈ call.visits, ∀ pair, visit.pair? = some pair → pair = call.pair :=
    fun visit member pair looks => Call.pair_of_mem member looks
  unfold Call.looks at first
  generalize call.visits = visits at same first
  cases visits with
  | nil => trivial
  | cons visit rest =>
      refine ⟨?_, ?_⟩
      · intro tgid tid looks
        have pair := same visit (List.mem_cons_self ..) _ looks
        rw [← pair] at first
        exact first (by simp [looks])
      · intro done next ran
        obtain ⟨tgid, tid, th, middle, visited⟩ := visit_cases sound ran
        have pair := same visit (List.mem_cons_self ..) _ visited.pair
        rw [← pair] at same
        exact eachStep_of_home ofHome
          (fun later member => same later (List.mem_cons_of_mem _ member))
          visited.sound_next visited.home_next

/-- What the visits that meet a condition keep, the calls keep whose first visit
meets it. -/
theorem step_invariant (condition : Plain → Pid → Pid → Prop) {invariant : Plain → Prop}
    (ofHome : ∀ plain tgid tid th, Sound none plain → Home plain tgid tid th →
      condition plain tgid tid)
    (sound : Sound none machine)
    (first : call.looks = true → condition machine call.pair.1 call.pair.2)
    (kept : ∀ visit ∈ call.visits, ∀ plain tgid tid th middle next, invariant plain →
      Sound none plain → condition plain tgid tid →
      Visited visit plain tgid tid th middle next → invariant next)
    (holds : invariant machine) {reply : Reply}
    (stepped : Plain.step call machine = .ok (reply, next)) :
    invariant next ∧ Sound none next := by
  obtain ⟨dones, ran⟩ := visits_of_step findnewThread stepped
  have all : ∀ visit ∈ call.visits, visit ∈ call.visits := fun _ member => member
  have visitKept : ∀ visit plain done after, (invariant plain ∧ Sound none plain) →
      ((∀ tgid tid, visit.pair? = some (tgid, tid) → condition plain tgid tid) ∧
        visit ∈ call.visits) →
      visit.step findnewThread plain = .ok (done, after) →
      invariant after ∧ Sound none after := by
    rintro visit plain done after ⟨before, plainSound⟩ ⟨meets, member⟩ visitRan
    obtain ⟨tgid, tid, th, middle, visited⟩ := visit_cases plainSound visitRan
    exact ⟨kept visit member plain tgid tid th middle after before plainSound
      (meets tgid tid visited.pair) visited, visited.sound_next⟩
  exact runAll_invariant visitKept ⟨holds, sound⟩
    ((eachStep_visits ofHome sound first).and_mem all) ran

/-- What every visit keeps, the calls keep. -/
theorem step_keeps {invariant : Plain → Prop} (sound : Sound none machine)
    (kept : ∀ visit ∈ call.visits, ∀ plain tgid tid th middle next, invariant plain →
      Sound none plain → Visited visit plain tgid tid th middle next → invariant next)
    (holds : invariant machine) {reply : Reply}
    (stepped : Plain.step call machine = .ok (reply, next)) : invariant next :=
  (step_invariant (fun _ _ _ => True) (fun _ _ _ _ _ _ => trivial) sound (fun _ => trivial)
    (fun visit member plain tgid tid th middle next before plainSound _ visited =>
      kept visit member plain tgid tid th middle next before plainSound visited)
    holds stepped).1

/-- A call that fails does so in one of its visits. -/
theorem step_error (condition : Plain → Pid → Pid → Prop)
    (ofHome : ∀ plain tgid tid th, Sound none plain → Home plain tgid tid th →
      condition plain tgid tid)
    (sound : Sound none machine)
    (first : call.looks = true → condition machine call.pair.1 call.pair.2)
    (failed : Plain.step call machine = .error failure) :
    ∃ visit ∈ call.visits, ∃ plain, Sound none plain ∧
      (∀ tgid tid, visit.pair? = some (tgid, tid) → condition plain tgid tid) ∧
      visit.step findnewThread plain = .error failure := by
  have visits := step_eq_visits findnewThread call machine
  rw [show call.step findnewThread machine = .error failure from failed] at visits
  cases ran : runAll (Visit.step findnewThread) call.visits machine with
  | ok result =>
      rw [ran] at visits
      cases visits
  | error failure' =>
      rw [ran] at visits
      obtain rfl : failure = failure' := Except.error.inj visits
      have all : ∀ visit ∈ call.visits, visit ∈ call.visits := fun _ member => member
      have visitKept : ∀ visit plain done after, Sound none plain →
          ((∀ tgid tid, visit.pair? = some (tgid, tid) → condition plain tgid tid) ∧
            visit ∈ call.visits) →
          visit.step findnewThread plain = .ok (done, after) → Sound none after := by
        rintro visit plain done after plainSound - visitRan
        obtain ⟨tgid, tid, th, middle, visited⟩ := visit_cases plainSound visitRan
        exact visited.sound_next
      obtain ⟨visit, plain, plainSound, ⟨meets, member⟩, visitFailed⟩ :=
        runAll_error visitKept sound ((eachStep_visits ofHome sound first).and_mem all) ran
      exact ⟨visit, member, plain, plainSound, meets, visitFailed⟩

end Condition

end Plain

end DwBpf
