import DwBpf.Event.Deletion
import DwBpf.Event.Progress

/-! # Deleting a machine after a run

A machine that a run of the library leads to can be deleted without a fault, and all
its objects come to their end, exactly when there are fewer than `2 ^ 32` references to
each of its maps objects and dsos (`DwBpf.runs_release_iff`): the counters are 32-bit
and unchecked.
-/

namespace DwBpf

/-- No thread waits in a list of dead threads. -/
def Store.NoDead (store : Store) : Prop := ∀ index, store.dead index = []

section NoDead

variable {machine next : Plain} {tgid tid : Pid}

theorem Plain.dead_ensure (machine : Plain) (tgid : Pid) :
    (machine.ensure tgid).store.dead = machine.store.dead := by
  unfold Plain.ensure
  cases machine.table tgid with
  | some leader => rfl
  | none => rfl

/-- Lookups leave the lists of dead threads alone. -/
theorem Plain.Outcome.dead_eq {found : Option (Ref Thread)}
    (outcome : Outcome machine tgid tid (.ok (found, next))) :
    next.store.dead = machine.store.dead := by
  cases outcome with
  | leader => exact dead_ensure machine tgid
  | stays => rfl
  | shares => exact dead_ensure machine tgid
  | leaves => exact dead_ensure machine tgid
  | enters => exact dead_ensure (machine.enroll tgid tid) tgid

theorem Plain.Visited.dead_eq {visit : Visit} {middle : Plain} {th : Ref Thread}
    (visited : Visited visit machine tgid tid th middle next)
    (accounted : machine.store.Accounted) : next.store.dead = machine.store.dead := by
  rw [← visited.outcome.dead_eq]
  rcases Visit.quiet_or_record visited.worked with quiet | ⟨event, created, -, ran⟩
  · exact quiet.dead
  · obtain ⟨-, thread, live, -⟩ := visited.home
    have middleAccounted := accounted.regroups visited.outcome.regroups
    obtain ⟨dso, found, maps, object, path, recorded⟩ := recorded_of_recordMap
      middleAccounted.interned live (visited.sound.linked th thread live) ran
    exact recorded.dead

end NoDead

/-- In every state that a run reaches the lists of dead threads are empty. -/
theorem Machine.noDead_of_run {calls : List Call} {replies : List Reply} {machine : Machine}
    (ran : runAll Machine.step calls Machine.new = .ok (replies, machine)) :
    ∃ plain, Matches machine plain ∧ plain.store.Accounted ∧ plain.store.NoDead := by
  have start : Store.empty.Accounted ∧ Store.empty.NoDead := ⟨accounted_empty, fun _ => rfl⟩
  have visits : ∀ (visit : Visit) plain tgid tid th middle next,
      Plain.Visited visit plain tgid tid th middle next →
      plain.store.Accounted ∧ plain.store.NoDead → next.store.Accounted ∧ next.store.NoDead := by
    rintro visit plain tgid tid th middle next visited ⟨accounted, noDead⟩
    refine ⟨visited.accounted accounted, fun index => ?_⟩
    rw [visited.dead_eq accounted]
    exact noDead index
  have steps : ∀ call plain reply next, Plain.Sound none plain →
      plain.store.Accounted ∧ plain.store.NoDead → Plain.step call plain = .ok (reply, next) →
      next.store.Accounted ∧ next.store.NoDead := by
    intro call plain reply next sound before stepped
    exact Plain.step_keeps sound (fun visit _ plain tgid tid th middle next before _ visited =>
      visits visit plain tgid tid th middle next visited before) before stepped
  exact runs_keep matches_new start steps ran

/-- Where few objects were made, the counters of maps and dsos are exact. -/
theorem Store.Accounted.tallied {store : Store} (accounted : store.Accounted) (few : store.Few) :
    store.Tallied where
  entries := accounted.entries
  nodup := accounted.nodup
  owned := accounted.owned
  named := accounted.named
  counted := by
    intro ref dso live
    rw [accounted.counted ref dso live, BitVec.toNat_ofNat,
      Nat.mod_eq_of_lt (few.dsos ref dso live)]
  listed := accounted.listed.nodup_iff.mpr accounted.interned.nodup
  dsos := by
    intro ref
    rw [accounted.listed.mem_iff]
    constructor
    · exact accounted.interned.live ref
    · rintro ⟨dso, live⟩
      exact accounted.rooted ref dso live

namespace Teardown

variable {machine : Machine} {plain : Plain} {links : Links DeadNode}

/-- The deletion of a machine whose threads are held by the table alone starts intact. -/
theorem intact_start (matched : Machine.Matches machine plain) (accounted : plain.store.Accounted)
    (noDead : plain.store.NoDead) (few : machine.store.Few)
    (single : ∀ th thread, machine.store.threads.get? th = some thread → thread.refcnt = 1)
    (rings : ∀ index, links.Ring (.head index) ((machine.store.dead index).map .thread)) :
    (start machine links).Intact := by
  obtain ⟨represents, sound⟩ := matched
  obtain ⟨store, table⟩ := machine
  obtain rfl : store = plain.store := represents.store
  refine ⟨accounted.tallied few, fun _ _ member => (nomatch member), single, sound.valid.mapped, ?_,
    ?_, represents.nodup, ?_, noDead, ?_⟩
  · intro maps object stored
    refine ⟨?_, sound.shared maps object stored⟩
    rw [sound.counted maps object stored, BitVec.toNat_ofNat]
    exact Nat.mod_eq_of_lt (few.maps maps object stored)
  · intro index th
    constructor
    · intro member
      obtain ⟨thread, live, -, inBucket, -⟩ := represents.live_of_member member
      exact ⟨thread, live, inBucket⟩
    · rintro ⟨thread, live, inBucket⟩
      exact (represents.member index th).mpr ⟨thread.tid, inBucket, sound.listed th thread live⟩
  · intro index
    exact (add_zero _).symm.trans (represents.counted index)
  · intro index
    have ring := rings index
    rw [noDead] at ring
    exact ring

/-- A maps object or a dso with `2 ^ 32` references is put once too often. -/
theorem few_of_releases {rb : RbErase} {last : Teardown} (sound : Plain.Sound none plain)
    (accounted : plain.store.Accounted) (same : machine.store = plain.store)
    (ran : machineDelete rb (start machine links) = .ok last) (releases : Releases machine last) :
    machine.store.Few := by
  have run := machineDelete_run ran
  obtain ⟨store, table⟩ := machine
  obtain rfl : store = plain.store := same
  refine ⟨?_, ?_⟩
  · intro ref object stored
    by_contra many
    have wrapped : Plain.sharers plain.store ref = 2 ^ 32 :=
      Nat.le_antisymm (sound.sharers_le ref) (Nat.le_of_not_lt many)
    have zero : (start ⟨plain.store, table⟩ links).ledger.count? (.maps ref) = some 0 := by
      refine (congrArg (Option.map Maps.refcnt) stored).trans ?_
      rw [Option.map_some, sound.counted ref object stored, wrapped]
      rfl
    obtain ⟨gone, -⟩ := releases.ended (.maps ref) 0 zero
    rcases run.opened zero with ⟨-, live⟩ | put
    · cases gone.symm.trans live
    · exact releases.positive (.maps ref) 0 put rfl
  · intro ref dso live
    have counted : (start ⟨plain.store, table⟩ links).ledger.count? (.dso ref) = some dso.refcnt :=
      congrArg (Option.map Dso.refcnt) live
    have ended : last.store.count? (.dso ref) = some 0 := releases.ended (.dso ref) _ counted
    have unmapped : last.ledger.held (.dso ref) = 0 := by
      apply Heap.count_eq_zero.mpr
      intro other map mapLive _
      have isLive : last.ledger.count? (.map other) = some map.refcnt :=
        congrArg (Option.map Map.refcnt) mapLive
      obtain ⟨first, wasLive⟩ := run.was_live isLive
      obtain ⟨gone, -⟩ := releases.ended (.map other) first wasLive
      cases gone.symm.trans isLive
    have puts := run.counted counted releases.positive 0 ended
    have held := run.held_le (.dso ref)
    rw [unmapped] at held
    change (plain.store.mapObjs.count fun map => map.dso = ref) ≤ _ at held
    rw [accounted.counted ref dso live, BitVec.toNat_ofNat] at puts
    change 0 + _ = _ at puts
    change 1 + (plain.store.mapObjs.count fun map => map.dso = ref) < _
    omega

end Teardown

/-- After a run in which every thread is left with the reference of its table, the machine
is deleted without a fault and its objects come to their end exactly when there are fewer
than `2 ^ 32` references to each maps object and dso. -/
theorem runs_release_iff {calls : List Call} {replies : List Reply} {machine : Machine}
    (ran : runAll Machine.step calls Machine.new = .ok (replies, machine))
    (single : ∀ th thread, machine.store.threads.get? th = some thread → thread.refcnt = 1)
    {links : Links DeadNode}
    (rings : ∀ index, links.Ring (.head index) ((machine.store.dead index).map .thread))
    (rb : RbErase) :
    (∃ last, Teardown.machineDelete rb (.start machine links) = .ok last ∧
      Teardown.Releases machine last) ↔ machine.store.Few := by
  obtain ⟨plain, matched, accounted, noDead⟩ := Machine.noDead_of_run ran
  constructor
  · rintro ⟨last, deletes, releases⟩
    exact Teardown.few_of_releases matched.2 accounted matched.1.store deletes releases
  · intro few
    exact Teardown.machineDelete_releases rb
      (Teardown.intact_start matched accounted noDead few single rings)

theorem visits_mapLs : ∃ event, (Call.mapLs 1 1).visits = [.record event true] ∧
    event.tid = event.tgid :=
  ⟨_, rfl, rfl⟩

/-- A leader that maps a file several times. -/
theorem repeated_mapLs (times : Nat) :
    ∃ replies machine name plain, runAll Machine.step (List.replicate times (.mapLs 1 1))
        Machine.new = .ok (replies, machine) ∧ Machine.Matches machine plain ∧
      Plain.Repeats name times plain := by
  obtain ⟨event, visits, leader⟩ := visits_mapLs
  obtain ⟨replies, machine, plain, ran, matched, repeats⟩ := Machine.repeats visits leader times
    Machine.matches_new (Plain.repeats_new event.filename)
  rw [Nat.zero_add] at repeats
  exact ⟨replies, machine, event.filename, plain, ran, matched, repeats⟩

/-- The lists of dead threads as `machine__new` has initialized them. -/
theorem Machine.rings_of_run {calls : List Call} {replies : List Reply} {machine : Machine}
    (ran : runAll Machine.step calls Machine.new = .ok (replies, machine))
    (index : Fin threadsTableSize) :
    Links.initial.Ring (DeadNode.head index) ((machine.store.dead index).map .thread) := by
  obtain ⟨plain, matched, -, noDead⟩ := Machine.noDead_of_run ran
  rw [matched.1.store, noDead index]
  exact Links.ring_initial _

theorem runs_release_iff_mapLs :
    ∃ replies machine, runAll Machine.step [.mapLs 1 1] Machine.new = .ok (replies, machine) ∧
      machine.store.Few ∧ ∃ last, Teardown.machineDelete ⟨fun _ links => links, fun _ _ _ _ => rfl,
        fun _ _ _ _ => rfl⟩ (.start machine .initial) = .ok last ∧
          Teardown.Releases machine last := by
  have run : ∃ replies machine, runAll Machine.step [.mapLs 1 1] Machine.new =
      .ok (replies, machine) ∧ machine.store.threads.next < 2 ^ 32 ∧
        1 + machine.store.mapObjs.next < 2 ^ 32 := by
    refine ⟨_, _, rfl, ?_, ?_⟩
    · decide
    · decide
  obtain ⟨replies, machine, ran, threads, mapObjs⟩ := run
  obtain ⟨replies', machine', name, plain, ran', matched, repeats⟩ := repeated_mapLs 1
  cases ran.symm.trans ran'
  have few := Store.few_of_next threads mapObjs
  have single : ∀ th thread, machine.store.threads.get? th = some thread → thread.refcnt = 1 := by
    rw [matched.1.store]
    exact repeats.single
  exact ⟨replies, machine, ran, few,
    (runs_release_iff ran single (Machine.rings_of_run ran) _).mpr few⟩

/-- A process that maps one file `2 ^ 32 - 1` times brings the counter of its dso back to
zero, and the deletion of the machine starts with a put that decrements it further. -/
theorem wrapped_dso_not_released :
    ∃ replies machine, runAll Machine.step (List.replicate (2 ^ 32 - 1) (.mapLs 1 1)) Machine.new =
        .ok (replies, machine) ∧
      (∀ th thread, machine.store.threads.get? th = some thread → thread.refcnt = 1) ∧
      (∀ index, Links.initial.Ring (DeadNode.head index)
        ((machine.store.dead index).map .thread)) ∧
      ∀ rb last, Teardown.machineDelete rb (.start machine .initial) = .ok last →
        ¬ Teardown.Releases machine last := by
  obtain ⟨replies, machine, name, plain, ran, matched, repeats⟩ := repeated_mapLs (2 ^ 32 - 1)
  refine ⟨replies, machine, ran, ?_, Machine.rings_of_run ran, ?_⟩
  · rw [matched.1.store]
    exact repeats.single
  · intro rb last deletes releases
    have few :=
      Teardown.few_of_releases matched.2 repeats.accounted matched.1.store deletes releases
    obtain ⟨ref, dso, live, count⟩ := repeats.count_eq (by decide)
    rw [matched.1.store] at few
    have bound := few.dsos ref dso live
    rw [count] at bound
    exact absurd bound (by decide)

end DwBpf
