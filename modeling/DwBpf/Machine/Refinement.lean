import DwBpf.Machine.Simulation
import DwBpf.Machine.Plain

/-! # The hashed table represents a plain one

`DwBpf.Machine.Represents` relates the 256 buckets of search trees, with their
counters and last matches, to a plain table of threads. The lookups agree under
it (`DwBpf.Machine.agree_findnewThread`), although the lookup of a leader may
insert into the bucket that the lookup of a thread is working on and overwrite
its last match: while a thread is linked but not counted yet, the counter of its
bucket is behind by one, which the parameter `pending` records.
-/

namespace DwBpf

namespace Machine

/-- The tid behind a reference, as the descents compare it. -/
def key (store : Store) (ref : Ref Thread) : Int :=
  ((store.threads.get? ref).map fun thread => thread.tid.toInt).getD 0

/-- The buckets hold the threads of the plain table, and `pending` of those in
each bucket are not counted yet. -/
structure Represents (pending : Fin threadsTableSize → U32) (machine : Machine) (plain : Plain) :
    Prop where
  store : machine.store = plain.store
  tabled : ∀ tid th, plain.table tid = some th → ∃ thread,
    plain.store.threads.get? th = some thread ∧ thread.tid = tid ∧ thread.node = .tree
  member : ∀ index th, th ∈ (machine.table index).entries.toList ↔
    ∃ tid, bucket tid = index ∧ plain.table tid = some th
  sorted : ∀ index, (machine.table index).entries.toList.Pairwise fun first second =>
    key machine.store first < key machine.store second
  counted : ∀ index, (machine.table index).nr + pending index =
    BitVec.ofNat 32 (machine.table index).entries.toList.length
  matched : ∀ index th, (machine.table index).lastMatch = some th →
    th ∈ (machine.table index).entries.toList

variable {pending : Fin threadsTableSize → U32} {machine : Machine} {plain : Plain}
  {index : Fin threadsTableSize} {tgid tid : Pid} {th : Ref Thread}
  {others : Fin threadsTableSize → U32}

theorem key_of_live {store : Store} {thread : Thread} (live : store.threads.get? th = some thread) :
    key store th = thread.tid.toInt := by
  simp [key, live]

/-- The comparison of the source steers by the tids of the threads. -/
theorem steer_of_live {store : Store} {thread : Thread}
    (live : store.threads.get? th = some thread) :
    steer store tid th = compare tid.toInt (key store th) := by
  simp only [steer, live, key_of_live live, BitVec.slt_eq_decide]
  by_cases same : thread.tid = tid
  · simp [same]
  · have apart : tid.toInt ≠ thread.tid.toInt :=
      fun equal => same (BitVec.eq_of_toInt_eq equal).symm
    rw [if_neg same]
    by_cases below : tid.toInt < thread.tid.toInt
    · simp [below, compare_lt_iff_lt.mpr]
    · have above : thread.tid.toInt < tid.toInt := by omega
      simp [below, compare_gt_iff_gt.mpr above]

namespace Represents

variable (represents : Represents pending machine plain)

include represents

theorem live_of_member (inTree : th ∈ (machine.table index).entries.toList) :
    ∃ thread, machine.store.threads.get? th = some thread ∧ thread.node = .tree ∧
      bucket thread.tid = index ∧ plain.table thread.tid = some th := by
  obtain ⟨tid, inBucket, found⟩ := (represents.member index th).mp inTree
  obtain ⟨thread, live, own, linked⟩ := represents.tabled tid th found
  refine ⟨thread, by rw [represents.store, live], linked, ?_, ?_⟩
  · rw [own, inBucket]
  · rw [own, found]

theorem nodup (index : Fin threadsTableSize) :
    (machine.table index).entries.toList.Nodup := by
  refine (represents.sorted index).imp ?_
  intro first second below same
  rw [same] at below
  exact Int.lt_irrefl _ below

theorem steered (index : Fin threadsTableSize) (tid : Pid) :
    Tree.Steered (steer machine.store tid) (machine.table index).entries.toList := by
  have agree : ∀ ref ∈ (machine.table index).entries.toList,
      steer machine.store tid ref = compare tid.toInt (key machine.store ref) := by
    intro ref inTree
    obtain ⟨thread, live, -⟩ := represents.live_of_member inTree
    exact steer_of_live live
  exact Tree.steered_of_sorted agree ((represents.sorted index).imp le_of_lt)

/-- A descent stops at the thread of the plain table. -/
theorem table_of_stopped
    (stopped : (machine.table index).entries.locate (steer machine.store tid) [] = .inl th) :
    plain.table tid = some th := by
  obtain ⟨inTree, answer⟩ := Tree.locate_inl stopped
  obtain ⟨thread, live, -, -, found⟩ := represents.live_of_member inTree
  rw [steer_of_live live, key_of_live live, compare_eq_iff_eq] at answer
  rwa [BitVec.eq_of_toInt_eq answer]

/-- A descent falls off when the plain table has no thread. -/
theorem table_of_fell {leaf : List (Frame (Ref Thread))}
    (fell : (machine.table (bucket tid)).entries.locate (steer machine.store tid) [] = .inr leaf) :
    plain.table tid = none := by
  cases found : plain.table tid with
  | none => rfl
  | some th =>
      have inTree := (represents.member (bucket tid) th).mpr ⟨tid, rfl, found⟩
      obtain ⟨thread, live, own, -⟩ := represents.tabled tid th found
      rw [← represents.store] at live
      have answer : steer machine.store tid th = .eq := by
        rw [steer_of_live live, key_of_live live, own, compare_eq_iff_eq]
      obtain ⟨front, back, split, -, -, low, high⟩ :=
        Tree.locate_inr_steered (represents.steered _ _) fell
      rw [split, List.mem_append] at inTree
      rcases inTree with inFront | inBack
      · rw [low th inFront] at answer
        cases answer
      · rw [high th inBack] at answer
        cases answer

/-- Threads that keep their ids stay in order. -/
theorem sorted_of_keys {next : Store} (index : Fin threadsTableSize)
    (same : ∀ ref ∈ (machine.table index).entries.toList, key next ref = key machine.store ref) :
    (machine.table index).entries.toList.Pairwise fun first second =>
      key next first < key next second := by
  refine (represents.sorted index).imp_of_mem ?_
  intro first second firstMem secondMem below
  rw [same first firstMem, same second secondMem]
  exact below

theorem keeps {next : Store} (keeps : machine.store.Keeps next) :
    Represents pending ⟨next, machine.table⟩ ⟨next, plain.table⟩ where
  store := rfl
  tabled := by
    intro tid th found
    obtain ⟨thread, live, own, linked⟩ := represents.tabled tid th found
    rw [← represents.store] at live
    obtain ⟨kept, keptLive, sameTid, keptLinked⟩ := keeps th thread live linked
    exact ⟨kept, keptLive, sameTid.trans own, keptLinked⟩
  member := represents.member
  sorted := by
    intro index
    apply represents.sorted_of_keys index
    intro ref inTree
    obtain ⟨thread, live, linked, -⟩ := represents.live_of_member inTree
    obtain ⟨kept, keptLive, sameTid, -⟩ := keeps ref thread live linked
    rw [key_of_live live, key_of_live keptLive, sameTid]
  counted := represents.counted
  matched := represents.matched

/-- A change to a bucket that leaves its tree alone. -/
theorem retouch {change : Threads → Threads}
    (same : (change (machine.table index)).entries = (machine.table index).entries)
    (counted : (change (machine.table index)).nr + others index =
      (machine.table index).nr + pending index)
    (rest : ∀ other, other ≠ index → others other = pending other)
    (matched : ∀ th, (change (machine.table index)).lastMatch = some th →
      th ∈ (machine.table index).entries.toList) :
    Represents others (machine.modifyBucket index change) plain := by
  have entries : ∀ other, ((machine.modifyBucket index change).table other).entries =
      (machine.table other).entries := by
    intro other
    by_cases isIndex : other = index
    · rw [isIndex, modifyBucket_self, same]
    · rw [modifyBucket_of_ne _ _ _ isIndex]
  refine ⟨represents.store, represents.tabled, ?_, ?_, ?_, ?_⟩
  · intro other th
    rw [entries]
    exact represents.member other th
  · intro other
    rw [entries]
    exact represents.sorted other
  · intro other
    rw [entries, ← represents.counted other]
    by_cases isIndex : other = index
    · rw [isIndex, modifyBucket_self, counted]
    · rw [modifyBucket_of_ne _ _ _ isIndex, rest other isIndex]
  · intro other th found
    rw [entries]
    by_cases isIndex : other = index
    · rw [isIndex, modifyBucket_self] at found
      rw [isIndex]
      exact matched th found
    · rw [modifyBucket_of_ne _ _ _ isIndex] at found
      exact represents.matched other th found

/-- The last match may be forgotten, or be any thread of the bucket. -/
theorem rematch (lastMatch : Option (Ref Thread))
    (member : ∀ th, lastMatch = some th → th ∈ (machine.table index).entries.toList) :
    Represents pending
      (machine.modifyBucket index fun threads => { threads with lastMatch := lastMatch }) plain :=
  represents.retouch rfl rfl (fun _ _ => rfl) member

theorem key_newThread (tgid tid : Pid) (inTree : th ∈ (machine.table index).entries.toList) :
    key (machine.store.newThread tgid tid) th = key machine.store th := by
  obtain ⟨thread, live, -⟩ := represents.live_of_member inTree
  have still : (machine.store.newThread tgid tid).threads.get? th = some thread :=
    Heap.get?_alloc_of_some _ live
  rw [key_of_live live, key_of_live still]

/-- A new thread is in order where the descent fell off. -/
theorem sorted_link {leaf : List (Frame (Ref Thread))} (tgid : Pid)
    (fell : (machine.table (bucket tid)).entries.locate (steer machine.store tid) [] = .inr leaf) :
    (Tree.link leaf machine.store.threads.nextRef).toList.Pairwise fun first second =>
      key (machine.store.newThread tgid tid) first <
        key (machine.store.newThread tgid tid) second := by
  have old := represents.sorted_of_keys (bucket tid) fun ref inTree =>
    represents.key_newThread tgid tid inTree
  refine Tree.sorted_link ?_ old fell
  intro ref inTree
  obtain ⟨thread, live, -⟩ := represents.live_of_member inTree
  have new : (machine.store.newThread tgid tid).threads.get? machine.store.threads.nextRef =
      some { Thread.new tgid tid with node := .tree } := Heap.get?_alloc_nextRef _ _
  rw [steer_of_live live, key_of_live new, represents.key_newThread tgid tid inTree]
  rfl

/-- Linking a new thread where a descent fell off enters it into the plain table. -/
theorem link {leaf : List (Frame (Ref Thread))} (tgid : Pid)
    (fell : (machine.table (bucket tid)).entries.locate (steer machine.store tid) [] = .inr leaf) :
    Represents (Function.update pending (bucket tid) (pending (bucket tid) + 1))
      (modifyBucket ⟨machine.store.newThread tgid tid, machine.table⟩ (bucket tid) fun threads =>
        { threads with entries := Tree.link leaf machine.store.threads.nextRef })
      (plain.enroll tgid tid) := by
  have absent := represents.table_of_fell fell
  have perm := Tree.toList_link_of_locate machine.store.threads.nextRef fell
  have enrolled : ∀ sought ref, (plain.enroll tgid tid).table sought = some ref ↔
      (sought = tid ∧ ref = machine.store.threads.nextRef) ∨ plain.table sought = some ref := by
    intro sought ref
    by_cases same : sought = tid
    · subst same
      simp [Plain.enroll, absent, represents.store, eq_comm]
    · simp [Plain.enroll, same]
  refine ⟨?_, ?_, ?_, ?_, ?_, ?_⟩
  · simp only [modifyBucket_store, Plain.enroll, represents.store]
  · intro sought ref found
    by_cases same : sought = tid
    · subst same
      obtain rfl : plain.store.threads.nextRef = ref := by
        simpa [Plain.enroll] using found
      exact ⟨_, Heap.get?_alloc_nextRef _ _, rfl, rfl⟩
    · have before : plain.table sought = some ref := by
        simpa [Plain.enroll, Function.update_of_ne same] using found
      obtain ⟨thread, live, own, linked⟩ := represents.tabled sought ref before
      exact ⟨thread, Heap.get?_alloc_of_some _ live, own, linked⟩
  · intro index ref
    rw [exists_congr fun sought => and_congr_right fun _ => enrolled sought ref]
    by_cases same : index = bucket tid
    · subst same
      rw [modifyBucket_self, perm.mem_iff, List.mem_cons, represents.member]
      constructor
      · rintro (rfl | ⟨sought, inBucket, found⟩)
        · exact ⟨tid, rfl, .inl ⟨rfl, rfl⟩⟩
        · exact ⟨sought, inBucket, .inr found⟩
      · rintro ⟨sought, inBucket, ⟨-, new⟩ | found⟩
        · exact .inl new
        · exact .inr ⟨sought, inBucket, found⟩
    · rw [modifyBucket_of_ne _ _ _ same, represents.member]
      constructor
      · rintro ⟨sought, inBucket, found⟩
        exact ⟨sought, inBucket, .inr found⟩
      · rintro ⟨sought, inBucket, ⟨rfl, -⟩ | found⟩
        · exact absurd inBucket.symm same
        · exact ⟨sought, inBucket, found⟩
  · intro index
    simp only [modifyBucket_store]
    by_cases same : index = bucket tid
    · subst same
      rw [modifyBucket_self]
      exact represents.sorted_link tgid fell
    · rw [modifyBucket_of_ne _ _ _ same]
      apply represents.sorted_of_keys index
      intro ref inTree
      exact represents.key_newThread tgid tid inTree
  · intro index
    by_cases same : index = bucket tid
    · subst same
      rw [modifyBucket_self, Function.update_self, perm.length_eq, List.length_cons,
        BitVec.ofNat_add, ← represents.counted, BitVec.add_assoc]
      rfl
    · rw [modifyBucket_of_ne _ _ _ same, Function.update_of_ne same]
      exact represents.counted index
  · intro index ref found
    by_cases same : index = bucket tid
    · subst same
      rw [modifyBucket_self] at found ⊢
      rw [perm.mem_iff]
      exact .tail _ (represents.matched _ ref found)
    · rw [modifyBucket_of_ne _ _ _ same] at found ⊢
      exact represents.matched index ref found

omit represents in
/-- Counting a linked thread and remembering it as the last match. -/
theorem count
    (represents : Represents (Function.update pending index (pending index + 1)) machine plain)
    (inTree : th ∈ (machine.table index).entries.toList) :
    Represents pending (machine.modifyBucket index fun threads =>
      { threads with lastMatch := some th, nr := threads.nr + 1 }) plain := by
  refine represents.retouch rfl ?_ ?_ ?_
  · rw [Function.update_self, BitVec.add_assoc, BitVec.add_comm 1]
  · intro other different
    rw [Function.update_of_ne different]
  · rintro ref ⟨⟩
    exact inTree

end Represents

section Agree

variable {lookup : Lookup (Fin threadsTableSize → Threads)} {lookup' : Lookup Table}

/-- A thread that is created in the plain table finds maps and stays there. -/
def Ready (lookup' : Lookup Table) (plain : Plain) (tgid tid : Pid) : Prop :=
  ∀ mapped next, plain.table tid = none →
    Thread.initMaps lookup' (plain.enroll tgid tid) plain.store.threads.nextRef =
      .ok (mapped, next) →
    mapped = true ∧ next.table tid = some plain.store.threads.nextRef

/-- A descent in the tree of a bucket finds what the table has, and else enters a thread. -/
theorem agree_descend (inStep : ∀ pending, InStep (Represents pending) lookup lookup')
    (represents : Represents pending machine plain) (ready : Ready lookup' plain tgid tid) :
    Agree (Results (Option (Ref Thread)) (Represents pending))
      (descend lookup machine (bucket tid) tgid tid true)
      (Plain.findnewThreadIn lookup' plain tgid tid) := by
  unfold descend Plain.findnewThreadIn
  cases located : (machine.table (bucket tid)).entries.locate (steer machine.store tid) [] with
  | inl th =>
      obtain ⟨inTree, -⟩ := Tree.locate_inl located
      obtain ⟨thread, live, -⟩ := represents.live_of_member inTree
      simp only [represents.table_of_stopped located, deref_of_get? live, ok_bind]
      refine (inStep pending).matched (represents.rematch (some th) ?_) th tgid
      rintro ref ⟨⟩
      exact inTree
  | inr leaf =>
      have absent := represents.table_of_fell located
      have agrees := (inStep _).initMaps (represents.link tgid located)
        machine.store.threads.nextRef
      simp only [absent, ↓reduceIte, ← represents.store]
      refine agrees.bind_of_ok ?_
      rintro ⟨mapped, next⟩ ⟨mapped', next'⟩ - plainRan ⟨same, nextRepresents⟩
      obtain rfl : mapped = mapped' := same
      rw [represents.store] at plainRan
      obtain ⟨rfl, stays⟩ := ready mapped next' absent plainRan
      rw [← represents.store] at stays
      replace nextRepresents : Represents _ next next' := nextRepresents
      simp only [↓reduceIte, ← nextRepresents.store]
      cases got : Thread.get next.store machine.store.threads.nextRef with
      | error failure => rfl
      | ok store =>
          have kept := nextRepresents.keeps (Thread.keeps_of_get got)
          refine ⟨rfl, kept.count ?_⟩
          exact (kept.member (bucket tid) _).mpr ⟨tid, rfl, stays⟩

/-- The last match of a bucket is the thread that the descent would find. -/
theorem agree_findnewThreadIn (inStep : ∀ pending, InStep (Represents pending) lookup lookup')
    (represents : Represents pending machine plain) (ready : Ready lookup' plain tgid tid) :
    Agree (Results (Option (Ref Thread)) (Represents pending))
      (findnewThreadIn lookup machine (bucket tid) tgid tid true)
      (Plain.findnewThreadIn lookup' plain tgid tid) := by
  unfold findnewThreadIn
  cases lastMatch : (machine.table (bucket tid)).lastMatch with
  | none => exact agree_descend inStep represents ready
  | some th =>
      have inTree := represents.matched (bucket tid) th lastMatch
      obtain ⟨thread, live, -, -, found⟩ := represents.live_of_member inTree
      simp only [deref_of_get? live, ok_bind]
      split
      · rename_i own
        rw [own] at found
        simp only [Plain.findnewThreadIn, found]
        exact (inStep pending).matched represents th tgid
      · refine agree_descend inStep (represents.rematch none ?_) ready
        intro ref same
        cases same

/-- A lookup that goes one level deep looks up leaders alike. -/
theorem inStep_leader (pending : Fin threadsTableSize → U32) :
    InStep (Represents pending) (findnewThreadWithin 1) (Plain.findnewThreadWithin 1) where
  store := fun _ _ represents => represents.store
  keeps := fun _ _ _ represents keeps => represents.keeps keeps
  agree := by
    intro machine plain tgid represents
    have shallow : ∀ pending, InStep (Represents pending) (findnewThreadWithin 0)
        (Plain.findnewThreadWithin 0) := fun _ =>
      ⟨fun _ _ represents => represents.store,
        fun _ _ _ represents keeps => represents.keeps keeps, fun _ _ _ _ => rfl⟩
    refine agree_findnewThreadIn shallow represents ?_
    intro mapped next absent ran
    rw [Plain.initMaps_leader] at ran
    cases ran
    exact ⟨rfl, Function.update_self ..⟩

/-- Therefore a lookup with the hashed table is one with the plain table, also the inner
lookup of a leader. -/
theorem agree_findnewThread (represents : Represents pending machine plain) (valid : plain.Valid)
    (tgid tid : Pid) :
    Agree (Results (Option (Ref Thread)) (Represents pending)) (findnewThread machine tgid tid)
      (Plain.findnewThread plain tgid tid) := by
  refine agree_findnewThreadIn inStep_leader represents ?_
  intro mapped next absent ran
  by_cases self : tid = tgid
  · subst self
    rw [Plain.initMaps_leader] at ran
    cases ran
    exact ⟨rfl, Function.update_self ..⟩
  · obtain ⟨leader, object, new, enters, -, initialised⟩ :=
      Plain.initMaps_of_absent valid self absent
    rw [initialised] at ran
    split at ran
    · cases ran
    · cases ran
      refine ⟨rfl, (Plain.ensure_table_of_ne self).trans ?_⟩
      exact Function.update_self ..

end Agree

end Machine

end DwBpf
