import DwBpf.Machine.Plain

/-! # Threads and the maps they share

The invariant of the thread table and of the maps its threads share. A maps
object is counted once for each thread that points to it
(`DwBpf.Plain.Sound.counted`); there are never more than `2 ^ 32` threads, so
dropping the last counted reference drops the last one, and a lookup destroys
no maps object that a thread still points to (`DwBpf.Plain.Outcome.sound`).
-/

namespace DwBpf

namespace Plain

/-- The number of threads that point to a maps object. -/
def sharers (store : Store) (maps : Ref Maps) : Nat :=
  store.threads.count fun thread => thread.maps = some maps

/-- The table holds exactly the live threads, each linked under its own tid. -/
structure Indexed (machine : Plain) : Prop where
  tabled : machine.Tabled
  listed : ∀ th thread, machine.store.threads.get? th = some thread →
    machine.table thread.tid = some th
  linked : ∀ th thread, machine.store.threads.get? th = some thread → thread.node = .tree

/-- The invariant of threads and maps; the thread `pending` may lack maps. -/
structure Sound (pending : Option (Ref Thread)) (machine : Plain) : Prop extends
    Indexed machine where
  mapped : ∀ th thread, machine.store.threads.get? th = some thread → some th ≠ pending →
    ∃ maps, thread.maps = some maps
  live : ∀ th thread maps, machine.store.threads.get? th = some thread →
    thread.maps = some maps → ∃ object, machine.store.maps.get? maps = some object
  counted : ∀ maps object, machine.store.maps.get? maps = some object →
    object.refcnt = BitVec.ofNat 32 (sharers machine.store maps)
  shared : ∀ maps object, machine.store.maps.get? maps = some object →
    0 < sharers machine.store maps

variable {machine next : Plain} {pending : Option (Ref Thread)} {tgid tid : Pid}
  {th leader : Ref Thread} {thread object : Thread} {old new : Ref Maps} {left : Maps}
  {change : Thread → Thread}

theorem Sound.valid (sound : Sound none machine) : machine.Valid where
  tabled := sound.tabled
  listed := sound.listed
  linked := sound.linked
  mapped := by
    intro th thread isLive
    obtain ⟨maps, has⟩ := sound.mapped th thread isLive (Option.some_ne_none th)
    obtain ⟨object, stored⟩ := sound.live th thread maps isLive has
    exact ⟨maps, object, has, stored⟩

theorem sound_new : Sound none Plain.new where
  tabled := fun _ _ found => nomatch found
  listed := fun _ _ isLive => nomatch isLive
  linked := fun _ _ isLive => nomatch isLive
  mapped := fun _ _ isLive => nomatch isLive
  live := fun _ _ _ isLive => nomatch isLive
  counted := fun _ _ stored => nomatch stored
  shared := fun _ _ stored => nomatch stored

/-- Threads are told apart by their tids. -/
theorem Sound.sharers_le (sound : Sound pending machine) (maps : Ref Maps) :
    sharers machine.store maps ≤ 2 ^ 32 := by
  apply Heap.count_le_of_key fun thread : Thread => thread.tid.toNat
  · intro ref value _
    exact value.tid.isLt
  · intro ref other value value' isLive isLive' same
    have tids : value.tid = value'.tid := BitVec.eq_of_toNat_eq same
    have found := sound.listed ref value isLive
    rw [tids, sound.listed other value' isLive'] at found
    exact (Option.some.inj found).symm

/-- The table stays an index over changes that leave tids and nodes. -/
theorem Indexed.modify (indexed : machine.Indexed)
    (threads : next.store.threads = machine.store.threads.modify th change)
    (table : next.table = machine.table) (tid : ∀ thread, (change thread).tid = thread.tid)
    (node : ∀ thread, (change thread).node = thread.node) : next.Indexed := by
  have keeps : ∀ ref thread, next.store.threads.get? ref = some thread → ∃ stored,
      machine.store.threads.get? ref = some stored ∧ thread.tid = stored.tid ∧
        thread.node = stored.node := by
    intro ref thread isLive
    rw [threads, Heap.get?_modify_eq_some] at isLive
    obtain ⟨stored, wasLive, rfl⟩ := isLive
    refine ⟨stored, wasLive, ?_⟩
    split
    · exact ⟨tid stored, node stored⟩
    · exact ⟨rfl, rfl⟩
  refine ⟨?_, ?_, ?_⟩
  · intro sought ref found
    rw [table] at found
    obtain ⟨thread, wasLive, own⟩ := indexed.tabled sought ref found
    rw [threads]
    refine ⟨_, Heap.get?_modify_eq_some.mpr ⟨thread, wasLive, rfl⟩, ?_⟩
    split
    · rw [tid, own]
    · exact own
  · intro ref thread isLive
    obtain ⟨stored, wasLive, sameTid, -⟩ := keeps ref thread isLive
    rw [table, sameTid]
    exact indexed.listed ref stored wasLive
  · intro ref thread isLive
    obtain ⟨stored, wasLive, -, sameNode⟩ := keeps ref thread isLive
    rw [sameNode]
    exact indexed.linked ref stored wasLive

/-- A new thread enters it under its tid. -/
theorem Indexed.enter (indexed : machine.Indexed) (absent : machine.table thread.tid = none)
    (threads : next.store.threads = machine.store.threads.alloc thread)
    (table : next.table =
      Function.update machine.table thread.tid (some machine.store.threads.nextRef))
    (node : thread.node = .tree) : next.Indexed := by
  refine ⟨?_, ?_, ?_⟩
  · intro sought ref found
    rw [table] at found
    rw [threads]
    by_cases same : sought = thread.tid
    · rw [same, Function.update_self, Option.some.injEq] at found
      exact ⟨thread, by rw [← found, Heap.get?_alloc_nextRef], same.symm⟩
    · rw [Function.update_of_ne same] at found
      obtain ⟨stored, wasLive, own⟩ := indexed.tabled sought ref found
      exact ⟨stored, Heap.get?_alloc_of_some _ wasLive, own⟩
  · intro ref stored isLive
    rw [threads, Heap.get?_alloc_eq_some] at isLive
    rw [table]
    rcases isLive with ⟨rfl, rfl⟩ | wasLive
    · exact Function.update_self ..
    · have found := indexed.listed ref stored wasLive
      have apart : stored.tid ≠ thread.tid := by
        intro same
        rw [same, absent] at found
        cases found
      rw [Function.update_of_ne apart]
      exact found
  · intro ref stored isLive
    rw [threads, Heap.get?_alloc_eq_some] at isLive
    rcases isLive with ⟨-, rfl⟩ | wasLive
    · exact node
    · exact indexed.linked ref stored wasLive

/-- A change to a thread that keeps its tid, its node and its maps. -/
structure Mild (change : Thread → Thread) : Prop where
  tid : ∀ thread, (change thread).tid = thread.tid
  node : ∀ thread, (change thread).node = thread.node
  maps : ∀ thread, (change thread).maps = thread.maps

theorem sharers_modifyThread {store : Store} (mild : Mild change) (maps : Ref Maps) :
    sharers (store.modifyThread th change) maps = sharers store maps :=
  Heap.count_modify_of_iff fun thread _ => by rw [mild.maps]

/-- A mild change of a thread leaves the machine sound. -/
theorem Sound.modifyThread (sound : Sound pending machine) (mild : Mild change) :
    Sound pending (machine.modifyThread th change) where
  toIndexed := sound.toIndexed.modify rfl rfl mild.tid mild.node
  mapped := by
    intro ref thread isLive other
    obtain ⟨stored, wasLive, rfl⟩ := Heap.get?_modify_eq_some.mp isLive
    have has := sound.mapped ref stored wasLive other
    split
    · rw [mild.maps]
      exact has
    · exact has
  live := by
    intro ref thread maps isLive has
    obtain ⟨stored, wasLive, rfl⟩ := Heap.get?_modify_eq_some.mp isLive
    apply sound.live ref stored maps wasLive
    split at has
    · rwa [mild.maps] at has
    · exact has
  counted := by
    intro maps object stored
    rw [State.modifyThread_store, sharers_modifyThread mild]
    exact sound.counted maps object stored
  shared := by
    intro maps object stored
    rw [State.modifyThread_store, sharers_modifyThread mild]
    exact sound.shared maps object stored

/-- No thread points to maps that are not allocated yet. -/
theorem Sound.sharers_nextRef (sound : Sound pending machine) :
    sharers machine.store machine.store.maps.nextRef = 0 := by
  apply Heap.count_eq_zero.mpr
  intro ref thread isLive has
  obtain ⟨object, stored⟩ := sound.live ref thread _ isLive has
  rw [Heap.get?_nextRef] at stored
  cases stored

/-- A new leader brings its own maps. -/
theorem Sound.ensure (sound : Sound pending machine) (tgid : Pid) :
    Sound pending (machine.ensure tgid) := by
  cases found : machine.table tgid with
  | some th =>
      rw [ensure_of_some found]
      exact sound
  | none =>
      have entered : (machine.ensure tgid).store.threads = machine.store.threads.alloc
          { Thread.new tgid tgid with node := .tree, maps := some machine.store.maps.nextRef } := by
        simp only [Plain.ensure, found]
      have added : (machine.ensure tgid).store.maps = machine.store.maps.alloc Maps.new := by
        simp only [Plain.ensure, found]
      have table : (machine.ensure tgid).table =
          Function.update machine.table tgid (some machine.store.threads.nextRef) := by
        simp only [Plain.ensure, found]
      have sharers_eq : ∀ maps, sharers (machine.ensure tgid).store maps =
          sharers machine.store maps + if machine.store.maps.nextRef = maps then 1 else 0 := by
        intro maps
        simp only [sharers, entered, Heap.count_alloc, Option.some.injEq]
      refine ⟨sound.toIndexed.enter found entered table rfl, ?_, ?_, ?_, ?_⟩
      · intro ref thread isLive other
        rw [entered, Heap.get?_alloc_eq_some] at isLive
        rcases isLive with ⟨-, rfl⟩ | wasLive
        · exact ⟨_, rfl⟩
        · exact sound.mapped ref thread wasLive other
      · intro ref thread maps isLive has
        rw [entered, Heap.get?_alloc_eq_some] at isLive
        rw [added]
        rcases isLive with ⟨-, rfl⟩ | wasLive
        · obtain rfl : machine.store.maps.nextRef = maps := Option.some.inj has
          exact ⟨_, Heap.get?_alloc_nextRef _ _⟩
        · obtain ⟨object, stored⟩ := sound.live ref thread maps wasLive has
          exact ⟨object, Heap.get?_alloc_of_some _ stored⟩
      · intro maps object stored
        rw [added, Heap.get?_alloc_eq_some] at stored
        rw [sharers_eq]
        rcases stored with ⟨rfl, rfl⟩ | wasStored
        · rw [sound.sharers_nextRef, if_pos rfl]
          rfl
        · rw [if_neg (Heap.ne_nextRef wasStored).symm]
          exact sound.counted maps object wasStored
      · intro maps object stored
        rw [added, Heap.get?_alloc_eq_some] at stored
        rw [sharers_eq]
        rcases stored with ⟨rfl, rfl⟩ | wasStored
        · rw [if_pos rfl]
          exact Nat.succ_pos _
        · exact Nat.lt_of_lt_of_le (sound.shared maps object wasStored) (Nat.le_add_right _ _)

/-- A thread that was entered is the one that may be without maps. -/
theorem Sound.enroll (sound : Sound none machine) (absent : machine.table tid = none) (tgid : Pid) :
    Sound (some machine.store.threads.nextRef) (machine.enroll tgid tid) := by
  have sharers_eq : ∀ maps, sharers (machine.enroll tgid tid).store maps =
      sharers machine.store maps := by
    intro maps
    simp only [Plain.enroll, Store.newThread, sharers, Heap.count_alloc, Thread.new, reduceCtorEq,
      ↓reduceIte, Nat.add_zero]
  refine ⟨sound.toIndexed.enter absent rfl rfl rfl, ?_, ?_, ?_, ?_⟩
  · intro ref thread isLive other
    rcases Heap.get?_alloc_eq_some.mp isLive with ⟨rfl, -⟩ | wasLive
    · exact absurd rfl other
    · exact sound.mapped ref thread wasLive (Option.some_ne_none ref)
  · intro ref thread maps isLive has
    rcases Heap.get?_alloc_eq_some.mp isLive with ⟨-, rfl⟩ | wasLive
    · cases has
    · exact sound.live ref thread maps wasLive has
  · intro maps object stored
    rw [sharers_eq]
    exact sound.counted maps object stored
  · intro maps object stored
    rw [sharers_eq]
    exact sound.shared maps object stored

/-- The counter of a maps object shows its last reference for what it is. -/
theorem Sound.last_iff (sound : Sound pending machine)
    (stored : machine.store.maps.get? old = some left) :
    left.refcnt - 1 = 0 ↔ sharers machine.store old = 1 := by
  have bound := sound.sharers_le old
  have some := sound.shared old left stored
  rw [sound.counted old left stored]
  constructor
  · intro last
    have number : (2 ^ 32 - 1 + sharers machine.store old % 2 ^ 32) % 2 ^ 32 = 0 :=
      congrArg BitVec.toNat last
    omega
  · intro one
    rw [one]
    rfl

/-- The machine once `th` has given up its maps `old`. -/
def parted (machine : Plain) (th : Ref Thread) (old : Ref Maps) (left : Maps) : Plain :=
  ⟨(machine.store.dropMaps old left).modifyThread th fun thread => { thread with maps := none },
    machine.table⟩

theorem sharers_parted (isLive : machine.store.threads.get? th = some thread)
    (has : thread.maps = some old) (maps : Ref Maps) :
    sharers (machine.parted th old left).store maps + (if old = maps then 1 else 0) =
      sharers machine.store maps := by
  have counts : sharers (machine.parted th old left).store maps +
      (if thread.maps = some maps then 1 else 0) = sharers machine.store maps + 0 :=
    Heap.count_modify isLive _
  simpa only [has, Option.some.injEq, Nat.add_zero] using counts

theorem get?_dropMaps_of_ne {store : Store} {maps : Ref Maps} (differs : maps ≠ old) :
    (store.dropMaps old left).maps.get? maps = store.maps.get? maps := by
  unfold Store.dropMaps
  split
  · rw [Heap.get?_free, if_neg differs]
  · exact Heap.get?_modify_of_ne _ differs

/-- What is left of `old`, which lives on when it has another sharer. -/
theorem get?_dropMaps_self (sound : Sound pending machine)
    (stored : machine.store.maps.get? old = some left) :
    (machine.store.dropMaps old left).maps.get? old =
      if sharers machine.store old = 1 then none
      else some { left with refcnt := left.refcnt - 1 } := by
  rw [Store.dropMaps, if_congr (sound.last_iff stored) rfl rfl]
  split
  · rw [Heap.get?_free, if_pos rfl]
  · rw [Heap.get?_modify_self, stored, Option.map_some]

/-- A thread that gave up its maps is then such a one. -/
theorem Sound.parted (sound : Sound none machine)
    (isLive : machine.store.threads.get? th = some thread) (has : thread.maps = some old)
    (stored : machine.store.maps.get? old = some left) :
    Sound (some th) (machine.parted th old left) := by
  have others : ∀ maps, sharers (machine.parted th old left).store maps +
      (if old = maps then 1 else 0) = sharers machine.store maps := sharers_parted isLive has
  refine ⟨sound.toIndexed.modify rfl rfl (fun _ => rfl) (fun _ => rfl), ?_, ?_, ?_, ?_⟩
  · intro ref object live other
    obtain ⟨before, wasLive, rfl⟩ := Heap.get?_modify_eq_some.mp live
    have differs : ref ≠ th := fun same => other (congrArg some same)
    rw [if_neg differs]
    exact sound.mapped ref before wasLive (Option.some_ne_none ref)
  · intro ref object maps live points
    obtain ⟨before, wasLive, rfl⟩ := Heap.get?_modify_eq_some.mp live
    by_cases same : ref = th
    · rw [if_pos same] at points
      cases points
    · rw [if_neg same] at points
      by_cases isOld : maps = old
      · subst isOld
        -- `ref` is another sharer of the maps that `th` gives up
        have another : 0 < sharers (machine.parted th maps left).store maps := by
          refine Heap.count_pos live ?_
          rw [if_neg same]
          exact points
        refine ⟨{ left with refcnt := left.refcnt - 1 }, ?_⟩
        rw [Plain.parted, Store.modifyThread_maps, get?_dropMaps_self sound stored, if_neg]
        have count := others maps
        rw [if_pos rfl] at count
        omega
      · obtain ⟨object, wasStored⟩ := sound.live ref before maps wasLive points
        exact ⟨object, (get?_dropMaps_of_ne isOld).trans wasStored⟩
  · intro maps object isStored
    have count := others maps
    by_cases isOld : maps = old
    · subst isOld
      rw [Plain.parted, Store.modifyThread_maps, get?_dropMaps_self sound stored] at isStored
      rw [if_pos rfl] at count
      split at isStored
      · cases isStored
      · cases isStored
        rw [sound.counted maps left stored, ← count, BitVec.ofNat_add]
        exact BitVec.add_sub_cancel _ _
    · rw [if_neg (Ne.symm isOld), Nat.add_zero] at count
      rw [count]
      exact sound.counted maps object ((get?_dropMaps_of_ne isOld).symm.trans isStored)
  · intro maps object isStored
    have count := others maps
    by_cases isOld : maps = old
    · subst isOld
      rw [Plain.parted, Store.modifyThread_maps, get?_dropMaps_self sound stored] at isStored
      have some := sound.shared maps left stored
      rw [if_pos rfl] at count
      split at isStored
      · cases isStored
      · omega
    · rw [if_neg (Ne.symm isOld), Nat.add_zero] at count
      rw [count]
      exact sound.shared maps object ((get?_dropMaps_of_ne isOld).symm.trans isStored)

theorem mild_regroup (tgid : Pid) : Mild fun thread => { thread with tgid := tgid } :=
  ⟨fun _ => rfl, fun _ => rfl, fun _ => rfl⟩

theorem mild_retainedIn (tgid : Pid) : Mild (retainedIn tgid) :=
  ⟨fun _ => rfl, fun _ => rfl, fun _ => rfl⟩

/-- A thread without maps joins its leader's. -/
theorem Sound.joined (sound : Sound (some th) machine)
    (isLive : machine.store.threads.get? th = some thread) (lacks : thread.maps = none)
    (stored : machine.store.maps.get? new = some left) (tgid : Pid) (leader : Ref Thread) :
    Sound none (machine.joined tgid th leader new) := by
  let shared := machine.store.modifyMaps new fun maps => { maps with refcnt := maps.refcnt + 1 }
  let store := shared.modifyThread th fun thread => { retainedIn tgid thread with maps := some new }
  have others : ∀ maps, sharers store maps =
      sharers machine.store maps + if new = maps then 1 else 0 := by
    intro maps
    have counts : sharers store maps + (if thread.maps = some maps then 1 else 0) =
        sharers machine.store maps + (if some new = some maps then 1 else 0) :=
      Heap.count_modify isLive _
    simpa only [lacks, reduceCtorEq, ↓reduceIte, Nat.add_zero, Option.some.injEq] using counts
  have joins : Sound none ⟨store, machine.table⟩ := by
    refine ⟨sound.toIndexed.modify rfl rfl (fun _ => rfl) (fun _ => rfl), ?_, ?_, ?_, ?_⟩
    · intro ref object live _
      obtain ⟨before, wasLive, rfl⟩ := Heap.get?_modify_eq_some.mp live
      by_cases same : ref = th
      · rw [if_pos same]
        exact ⟨new, rfl⟩
      · rw [if_neg same]
        exact sound.mapped ref before wasLive fun equal => same (Option.some.inj equal)
    · intro ref object maps live points
      obtain ⟨before, wasLive, rfl⟩ := Heap.get?_modify_eq_some.mp live
      have wasStored : ∃ object, machine.store.maps.get? maps = some object := by
        by_cases same : ref = th
        · rw [if_pos same] at points
          obtain rfl : new = maps := Option.some.inj points
          exact ⟨left, stored⟩
        · rw [if_neg same] at points
          exact sound.live ref before maps wasLive points
      obtain ⟨object, wasStored⟩ := wasStored
      exact ⟨_, Heap.get?_modify_eq_some.mpr ⟨object, wasStored, rfl⟩⟩
    · intro maps object isStored
      obtain ⟨before, wasStored, rfl⟩ := Heap.get?_modify_eq_some.mp isStored
      have count := sound.counted maps before wasStored
      rw [others]
      by_cases isNew : maps = new
      · subst isNew
        rw [if_pos rfl, if_pos rfl, BitVec.ofNat_add, ← count]
        rfl
      · rw [if_neg isNew, if_neg (Ne.symm isNew)]
        exact count
    · intro maps object isStored
      obtain ⟨before, wasStored, rfl⟩ := Heap.get?_modify_eq_some.mp isStored
      rw [others]
      exact Nat.lt_of_lt_of_le (sound.shared maps before wasStored) (Nat.le_add_right _ _)
  exact joins.modifyThread (mild_regroup tgid)

/-- Giving up maps first makes no difference to a thread that joins others. -/
theorem joined_parted :
    (machine.parted th old left).joined tgid th leader new =
      joined ⟨machine.store.dropMaps old left, machine.table⟩ tgid th leader new := by
  simp only [Plain.joined, Plain.parted, Store.modifyThread, Store.modifyMaps, Heap.modify_modify]
  rfl

/-- A lookup that returns keeps the invariant. -/
theorem Outcome.sound {found : Option (Ref Thread)}
    (outcome : Outcome machine tgid tid (.ok (found, next))) (sound : Sound none machine) :
    Sound none next := by
  cases outcome with
  | leader self found => exact (sound.ensure tgid).modifyThread (mild_retainedIn tgid)
  | stays member found live stays => exact sound.modifyThread (mild_retainedIn tgid)
  | shares moves shares =>
      exact ((sound.ensure tgid).modifyThread (mild_retainedIn tgid)).modifyThread
        (mild_retainedIn tgid)
  | @leaves th leader _ old new left leaves empty counted =>
      obtain ⟨thread, moves, has⟩ := leaves.moves
      have parts := (sound.ensure tgid).parted (get?_ensure moves.live tgid) has
        (get?_maps_ensure leaves.stored tgid)
      obtain ⟨shared, stored⟩ := (sound.ensure tgid).live _ _ _ moves.leads leaves.shares
      rw [← joined_parted]
      have lacks : ((machine.ensure tgid).parted th old left).store.threads.get? th =
          some { thread with maps := none } :=
        Heap.get?_modify_eq_some.mpr ⟨thread, get?_ensure moves.live tgid, (if_pos rfl).symm⟩
      exact parts.joined lacks rfl ((get?_dropMaps_of_ne leaves.differs.symm).trans stored) tgid _
  | enters enters counted =>
      have entered := (sound.enroll enters.absent tgid).ensure tgid
      obtain ⟨shared, stored⟩ := entered.live _ _ _ enters.leads enters.shares
      exact entered.joined (get?_ensure (Heap.get?_alloc_nextRef _ _) tgid) rfl stored tgid _

end Plain

end DwBpf
