import DwBpf.Atlas.Model
import DwBpf.Event.Callchain
import DwBpf.Event.Retaining

/-! # Machines that an atlas describes

An atlas describes a machine whose threads stay in their processes
(`DwBpf.Plain.Drawn`): the lists of the maps objects are its ranges, and its threads have
the names of the atlas. Looking up a thread of the right process finds it, and changes
nothing that the atlas describes (`DwBpf.Plain.Drawn.looked`).
-/

namespace DwBpf

/-- The range of the map behind a reference. -/
def Map.rangeOf (store : Store) (ref : Ref Map) : Range :=
  ((store.mapObjs.get? ref).map fun map => map.range store).getD ⟨0, 0, 0, []⟩

theorem Map.rangeOf_of_live {store : Store} {ref : Ref Map} {map : Map}
    (live : store.mapObjs.get? ref = some map) : Map.rangeOf store ref = map.range store := by
  simp [Map.rangeOf, live]

namespace Plain

/-- The atlas describes the machine after so many visits, each of which took one reference
to a thread at most. -/
structure Drawn (disk : Disk) (group : Pid → Pid) (layout : Pid → List Range) (spent : Nat)
    (machine : Plain) (atlas : Atlas) : Prop where
  ranged : Ranged group layout machine
  onDisk : machine.store.OnDisk disk
  pages : ∀ member its maps object, machine.groups member = some (its, maps) →
    machine.store.maps.get? maps = some object →
    object.head.map (Map.rangeOf machine.store) = atlas.ranges its
  blank : ∀ its, atlas.ranges its ≠ [] → ∃ member maps, machine.groups member = some (its, maps)
  marks : ∀ tid, (machine.marksOf tid).1 = atlas.names tid ∧
    (machine.marksOf tid).2.1 = atlas.prepared tid
  operated : machine.store.Operated
  held : ∀ th thread, machine.store.threads.get? th = some thread →
    1 ≤ thread.refcnt.toNat ∧ thread.refcnt.toNat ≤ spent + 1

variable {machine middle next : Plain} {tgid tid : Pid} {th ref : Ref Thread}
  {thread after : Thread} {disk : Disk} {group : Pid → Pid} {layout : Pid → List Range}
  {spent : Nat} {atlas : Atlas}

/-- The threads of the table are in their own processes. -/
theorem Ranged.tgid_eq (ranged : Ranged group layout machine) (sound : Sound none machine)
    (live : machine.store.threads.get? th = some thread) : thread.tgid = group thread.tid := by
  obtain ⟨maps, has⟩ := sound.mapped th thread live (Option.some_ne_none th)
  apply ranged.owned thread.tid thread.tgid maps
  exact groups_of_has (sound.listed th thread live) live has

/-- A lookup of a thread for its own process does not move it. -/
theorem Ranged.stay {leader : Ref Thread} {object : Thread} (ranged : Ranged group layout machine)
    (sound : Sound none machine) (own : group tid = tgid) :
    ¬ Moves machine tgid tid th thread leader object := by
  intro moves
  obtain ⟨stored, live, isTid⟩ := sound.tabled tid th moves.found
  cases live.symm.trans moves.live
  apply moves.moves
  rw [ranged.tgid_eq sound live, isTid, own]

theorem rangeOf_regroups {store next : Store} (regroups : store.Regroups next) :
    Map.rangeOf next = Map.rangeOf store := by
  funext ref
  rw [Map.rangeOf, Map.rangeOf, regroups.mapObjs]
  congr 2
  funext map
  rw [Map.range, Map.range, Store.name_of_dsos_eq regroups.dsos]

/-- Members of the groups stay there, and the others join with the maps of the group, or
with new ones where the group had no members. -/
theorem Outcome.members (outcome : Outcome machine tgid tid (.ok (some th, middle)))
    (ranged : Ranged group layout machine) (sound : Sound none machine) (own : group tid = tgid)
    (leads : group tgid = tgid) :
    (∀ member its maps, machine.groups member = some (its, maps) →
        middle.groups member = some (its, maps)) ∧
      ∀ member its maps, middle.groups member = some (its, maps) →
        maps = machine.store.maps.nextRef ∨ ∃ other, machine.groups other = some (its, maps) := by
  obtain stays | ⟨joins, -⟩ := outcome.groups_eq sound
  · rw [stays]
    exact ⟨fun _ _ _ isMember => isMember, fun member _ _ isMember => .inr ⟨member, isMember⟩⟩
  · rw [joins]
    refine ⟨fun member its maps isMember => ?_, fun member its maps isMember => ?_⟩
    · exact Groups.join_of_some leads ranged.isolated.separated ranged.isolated.led ranged.owned
        own isMember
    · exact Groups.space_of_join leads ranged.owned isMember

/-- The lists of maps objects after a lookup are those from before. -/
theorem Drawn.pages_looked (drawn : Drawn disk group layout spent machine atlas)
    (sound : Sound none machine)
    (outcome : Outcome machine tgid tid (.ok (some th, middle))) (own : group tid = tgid)
    (leads : group tgid = tgid) {member its : Pid} {maps : Ref Maps} {object : Maps}
    (isMember : middle.groups member = some (its, maps))
    (isAfter : middle.store.maps.get? maps = some object) :
    object.head.map (Map.rangeOf middle.store) = atlas.ranges its := by
  have regroups := outcome.regroups
  obtain ⟨stays, came⟩ := outcome.members drawn.ranged sound own leads
  rw [rangeOf_regroups regroups]
  obtain fresh | ⟨other, isOther⟩ := came member its maps isMember
  · -- the maps are new, so that no thread of the process was there before
    obtain ⟨-, empty⟩ | ⟨object', stored, -⟩ := regroups.came maps object isAfter
    · rw [empty, List.map_nil]
      by_contra some
      obtain ⟨old, its', isOld⟩ := drawn.blank its (Ne.symm some)
      obtain ⟨ranged, -⟩ := outcome.ranged sound drawn.ranged own leads
      have same := (ranged.isolated.separated _ _ _ _ _ _ isMember
        (stays old its its' isOld)).mpr rfl
      exact sound_unused sound old its its' isOld (same.symm.trans fresh)
    · exact absurd fresh (Heap.ne_nextRef stored)
  · obtain ⟨ref, thread, -, live, -, -, has⟩ := (groups_eq_some sound.tabled).mp isOther
    obtain ⟨before, stored⟩ := sound.live ref thread maps live has
    have page := drawn.pages other its maps before isOther stored
    obtain ⟨noEntries, empty⟩ | ⟨object', stored', -, head⟩ := regroups.came maps object isAfter
    · have unlisted : before.head = [] := by
        have perm := drawn.ranged.accounted.head maps before stored
        by_cases entries : before.entries.toList = []
        · rw [entries] at perm
          exact perm.eq_nil
        · obtain ⟨kept, isKept, same, -⟩ := regroups.kept maps before stored entries
          cases isAfter.symm.trans isKept
          rw [same] at noEntries
          exact absurd noEntries entries
      rw [empty, ← page, unlisted]
    · cases stored.symm.trans stored'
      rw [head]
      exact page

/-- In a described machine a lookup takes one reference to the thread that it returns. -/
theorem Drawn.retains (drawn : Drawn disk group layout spent machine atlas)
    (sound : Sound none machine)
    (outcome : Outcome machine tgid tid (.ok (some th, middle))) (own : group tid = tgid)
    (enough : spent + 2 < 2 ^ 32) : machine.store.Retains middle.store tgid th := by
  apply (outcome.retains_iff sound).mpr
  constructor
  · intro other ref thread leader lead live isTid moves
    refine absurd ?_ moves
    rw [drawn.ranged.tgid_eq sound live, isTid, own]
  · intro ref thread live isTid full
    have few := (drawn.held ref thread live).2
    rw [full, BitVec.toNat_allOnes] at few
    omega

/-- Threads stay counted after a lookup, and the one it returns is held twice. -/
theorem held_of_retains {store next : Store} (retains : store.Retains next tgid th)
    (held : ∀ th thread, store.threads.get? th = some thread →
      1 ≤ thread.refcnt.toNat ∧ thread.refcnt.toNat ≤ spent + 1)
    (live : next.threads.get? ref = some after) :
    1 ≤ after.refcnt.toNat ∧ after.refcnt.toNat ≤ spent + 2 ∧
      (ref = th → 2 ≤ after.refcnt.toNat) := by
  cases was : store.threads.get? ref with
  | none =>
      by_cases same : ref = th
      · subst same
        obtain ⟨created, isCreated, two⟩ := retains.created was
        cases live.symm.trans isCreated
        have count : after.refcnt.toNat = 2 := congrArg BitVec.toNat two
        omega
      · have count : after.refcnt.toNat = 1 :=
          congrArg BitVec.toNat (retains.led ref after live was same).2
        exact ⟨by omega, by omega, fun equal => absurd equal same⟩
  | some before =>
      have bounds := held ref before was
      by_cases same : ref = th
      · subst same
        obtain ⟨gained, isGained, more⟩ := retains.gained before was
        cases live.symm.trans isGained
        omega
      · obtain ⟨kept, isKept, count⟩ := retains.others ref before was same
        cases live.symm.trans isKept
        rw [count]
        exact ⟨bounds.1, by omega, fun equal => absurd equal same⟩

/-- A lookup for the right process finds the thread, and changes nothing that the atlas
describes. -/
theorem Drawn.looked (drawn : Drawn disk group layout spent machine atlas)
    (sound : Sound none machine)
    (outcome : Outcome machine tgid tid (.ok (some th, middle))) (own : group tid = tgid)
    (leads : group tgid = tgid) (enough : spent + 2 < 2 ^ 32) :
    Drawn disk group layout (spent + 1) middle atlas ∧
      ∀ thread, middle.store.threads.get? th = some thread → 2 ≤ thread.refcnt.toNat := by
  have retains := drawn.retains sound outcome own enough
  refine ⟨⟨(outcome.ranged sound drawn.ranged own leads).1, ?_, ?_, ?_, ?_, ?_, ?_⟩, ?_⟩
  · intro ref dso live
    rw [outcome.regroups.dsos] at live
    exact drawn.onDisk ref dso live
  · intro member its maps object isMember stored
    exact drawn.pages_looked sound outcome own leads isMember stored
  · intro its some
    obtain ⟨member, maps, isMember⟩ := drawn.blank its some
    exact ⟨member, maps, (outcome.members drawn.ranged sound own leads).1 member its maps isMember⟩
  · intro other
    rw [outcome.marksOf_eq sound]
    exact drawn.marks other
  · exact outcome.operated sound drawn.operated
  · intro ref after live
    obtain ⟨some, few, -⟩ := held_of_retains retains drawn.held live
    exact ⟨some, few⟩
  · intro after live
    exact (held_of_retains retains drawn.held live).2.2 rfl

/-- A lookup for the right process does not fail. -/
theorem Drawn.not_error {failure : Fault} (drawn : Drawn disk group layout spent machine atlas)
    (sound : Sound none machine) (own : group tid = tgid) :
    ¬ Outcome machine tgid tid (.error failure) := by
  intro outcome
  have wraps := outcome.linkedPut_iff sound
  cases outcome with
  | broken leaves occupied =>
      obtain ⟨thread, moves, -⟩ := leaves.moves
      exact drawn.ranged.stay sound own moves
  | leavesWrapped leaves empty wrapped =>
      obtain ⟨thread, moves, -⟩ := leaves.moves
      exact drawn.ranged.stay sound own moves
  | entersWrapped enters wrapped =>
      obtain ⟨-, leader, lead, live, -, zero, -⟩ := wraps.mp rfl
      have some := (drawn.held leader lead live).1
      rw [zero] at some
      exact absurd some (by decide)

end Plain

end DwBpf
