import DwBpf.Event.Accounting
import DwBpf.Event.Isolation
import DwBpf.Event.ProcMaps
import Mathlib.Data.List.Pairwise

/-! # The ranges of a process

While every tid keeps its tgid, the maps of a process hold nothing but ranges that
were read for it, sorted by their starts (`DwBpf.Plain.Ranged`), and they keep what
was recorded (`DwBpf.Plain.Knows`). If the ranges of the process do not overlap, a
search in such maps finds the range around an address exactly when there is one,
however often it was recorded (`DwBpf.Maps.find_of_within`).
-/

namespace DwBpf

/-- The range of a map object. -/
def Map.range (store : Store) (map : Map) : Range :=
  ⟨map.start, map.stop, map.pgoff, Dso.name store map.dso⟩

/-- Where the map behind a reference starts. -/
def Map.startOf (store : Store) (ref : Ref Map) : Nat :=
  ((store.mapObjs.get? ref).map fun map => map.start.toNat).getD 0

/-- Where the map behind a reference stops. -/
def Map.stopOf (store : Store) (ref : Ref Map) : Nat :=
  ((store.mapObjs.get? ref).map fun map => map.stop.toNat).getD 0

namespace Store

/-- The maps object `maps` holds a map with the range. -/
def Has (store : Store) (maps : Ref Maps) (range : Range) : Prop :=
  ∃ object ref map, store.maps.get? maps = some object ∧ ref ∈ object.entries.toList ∧
    store.mapObjs.get? ref = some map ∧ map.range store = range

/-- The maps object `maps` is sorted and holds maps with the given ranges only. -/
structure Within (store : Store) (ranges : List Range) (maps : Ref Maps) : Prop where
  member : ∀ range, store.Has maps range → range ∈ ranges
  sorted : ∀ object, store.maps.get? maps = some object → object.entries.toList.Pairwise
    fun first second => Map.startOf store first ≤ Map.startOf store second

variable {store next : Store} {maps : Ref Maps} {range : Range} {ranges : List Range}

theorem name_of_dsos_eq (same : next.dsos = store.dsos) (ref : Ref Dso) :
    Dso.name next ref = Dso.name store ref := by
  rw [Dso.name, Dso.name, same]

theorem Has.regroups (has : store.Has maps range) (regroups : store.Regroups next) :
    next.Has maps range := by
  obtain ⟨object, ref, map, stored, member, live, rfl⟩ := has
  obtain ⟨after, isAfter, entries, -⟩ :=
    regroups.kept maps object stored (List.ne_nil_of_mem member)
  refine ⟨after, ref, map, isAfter, by rwa [entries], by rwa [regroups.mapObjs], ?_⟩
  rw [Map.range, Map.range, name_of_dsos_eq regroups.dsos]

/-- What regroups leaves the ranges of all maps objects. -/
theorem Within.regroups (within : store.Within ranges maps) (regroups : store.Regroups next) :
    next.Within ranges maps := by
  constructor
  · rintro range ⟨after, ref, map, isAfter, member, live, rfl⟩
    rcases regroups.came maps after isAfter with ⟨empty, -⟩ | ⟨object, stored, entries, -⟩
    · rw [empty] at member
      cases member
    · apply within.member
      refine ⟨object, ref, map, stored, by rwa [← entries], by rwa [← regroups.mapObjs], ?_⟩
      rw [Map.range, Map.range, name_of_dsos_eq regroups.dsos]
  · intro after isAfter
    rcases regroups.came maps after isAfter with ⟨empty, -⟩ | ⟨object, stored, entries, -⟩
    · rw [empty]
      exact .nil
    · rw [entries]
      unfold Map.startOf
      rw [regroups.mapObjs]
      exact within.sorted object stored

/-- New maps objects are empty. -/
theorem within_of_fresh (regroups : store.Regroups next) (ranges : List Range) :
    next.Within ranges store.maps.nextRef := by
  have empty : ∀ after, next.maps.get? store.maps.nextRef = some after →
      after.entries.toList = [] := by
    intro after isAfter
    rcases regroups.came _ after isAfter with ⟨empty, -⟩ | ⟨object, stored, -⟩
    · exact empty
    · exact absurd rfl (Heap.ne_nextRef stored)
  constructor
  · rintro range ⟨after, ref, map, isAfter, member, -⟩
    rw [empty after isAfter] at member
    cases member
  · intro after isAfter
    rw [empty after isAfter]
    exact .nil

theorem Quiet.has_iff (quiet : store.Quiet next) : next.Has maps range ↔ store.Has maps range := by
  have same : ∀ map : Map, map.range next = map.range store := by
    intro map
    rw [Map.range, Map.range, quiet.name_eq]
  simp only [Has, quiet.maps, quiet.mapObjs, same]

theorem Within.quiet (within : store.Within ranges maps) (quiet : store.Quiet next) :
    next.Within ranges maps := by
  refine ⟨fun range has => within.member range (quiet.has_iff.mp has), ?_⟩
  unfold Map.startOf
  rw [quiet.maps, quiet.mapObjs]
  exact within.sorted

end Store

section Recorded

variable {event : MmapEvent} {store next found : Store} {th : Ref Thread} {dso : Ref Dso}
  {maps : Ref Maps} {object : Maps} {path : List (Frame (Ref Map))} {ref : Ref Map} {map : Map}

theorem Recorded.range_of_live
    (recorded : Recorded event store th next dso found maps object path)
    (accounted : store.Accounted) (live : store.mapObjs.get? ref = some map) :
    map.range next = map.range store := by
  obtain ⟨named, isLive⟩ := accounted.named ref map live
  obtain ⟨after, afterLive, longName⟩ := recorded.interned.live_of_live isLive
  rw [← recorded.dsos] at afterLive
  rw [Map.range, Map.range, Dso.name_of_live isLive, Dso.name_of_live afterLive, longName]

theorem Recorded.range_new (recorded : Recorded event store th next dso found maps object path) :
    (Map.recorded event dso maps).range next = event.range := by
  obtain ⟨object, live, longName⟩ := recorded.interned.live
  rw [← recorded.dsos] at live
  rw [Map.range, MmapEvent.range, show (Map.recorded event dso maps).dso = dso from rfl,
    Dso.name_of_live live, longName]
  rfl

theorem Recorded.live_of_live (recorded : Recorded event store th next dso found maps object path)
    (live : store.mapObjs.get? ref = some map) : next.mapObjs.get? ref = some map := by
  rw [recorded.allocated]
  exact Heap.get?_alloc_of_some _ live

/-- The range of the event is entered into the maps, and no other. -/
theorem Recorded.has_iff (recorded : Recorded event store th next dso found maps object path)
    (accounted : store.Accounted) {others : Ref Maps} {range : Range} :
    next.Has others range ↔ store.Has others range ∨ (others = maps ∧ range = event.range) := by
  constructor
  · rintro ⟨after, ref, map, isAfter, member, live, rfl⟩
    rw [recorded.allocated] at live
    rcases Heap.get?_alloc_eq_some.mp live with ⟨rfl, rfl⟩ | wasLive
    · rcases recorded.maps_cases isAfter with ⟨same, -⟩ | ⟨-, stored⟩
      · exact .inr ⟨same, recorded.range_new⟩
      · obtain ⟨old, oldLive, -⟩ := accounted.entries others after stored _ member
        exact absurd rfl (Heap.ne_nextRef oldLive)
    · left
      rw [recorded.range_of_live accounted wasLive]
      rcases recorded.maps_cases isAfter with ⟨rfl, entries, -⟩ | ⟨-, stored⟩
      · rw [entries, recorded.perm.mem_iff, List.mem_cons] at member
        rcases member with rfl | inside
        · exact absurd rfl (Heap.ne_nextRef wasLive)
        · exact ⟨object, ref, map, recorded.stored, inside, wasLive, rfl⟩
      · exact ⟨after, ref, map, stored, member, wasLive, rfl⟩
  · rintro (⟨before, ref, map, stored, member, live, rfl⟩ | ⟨rfl, rfl⟩)
    · rw [← recorded.range_of_live accounted live]
      by_cases same : others = maps
      · subst same
        cases recorded.stored.symm.trans stored
        refine ⟨_, ref, map, by rw [recorded.entered, Heap.get?_modify_self, stored]; rfl, ?_,
          recorded.live_of_live live, rfl⟩
        exact recorded.perm.mem_iff.mpr (List.mem_cons_of_mem _ member)
      · refine ⟨before, ref, map, ?_, member, recorded.live_of_live live, rfl⟩
        rw [recorded.entered, Heap.get?_modify_of_ne _ same, stored]
    · refine ⟨_, _, _, by rw [recorded.entered, Heap.get?_modify_self, recorded.stored]; rfl,
        recorded.perm.mem_iff.mpr (List.mem_cons_self ..), ?_, recorded.range_new⟩
      rw [recorded.allocated]
      exact Heap.get?_alloc_nextRef _ _

/-- A map goes behind those that start where it does or before. -/
theorem Recorded.sorted (recorded : Recorded event store th next dso found maps object path)
    (accounted : store.Accounted) {others : Ref Maps} {after : Maps}
    (sorted : ∀ before, store.maps.get? others = some before → before.entries.toList.Pairwise
      fun first second => Map.startOf store first ≤ Map.startOf store second)
    (isAfter : next.maps.get? others = some after) : after.entries.toList.Pairwise
      fun first second => Map.startOf next first ≤ Map.startOf next second := by
  have same : ∀ before, store.maps.get? others = some before → ∀ ref ∈ before.entries.toList,
      Map.startOf next ref = Map.startOf store ref := by
    intro before stored ref member
    obtain ⟨map, live, -⟩ := accounted.entries others before stored ref member
    rw [Map.startOf, Map.startOf, recorded.live_of_live live, live]
  have kept : ∀ before, store.maps.get? others = some before → before.entries.toList.Pairwise
      fun first second => Map.startOf next first ≤ Map.startOf next second := by
    intro before stored
    refine (sorted before stored).imp_of_mem ?_
    intro first second isFirst isSecond below
    rwa [same before stored first isFirst, same before stored second isSecond]
  rcases recorded.maps_cases isAfter with ⟨rfl, entries, -⟩ | ⟨-, stored⟩
  · rw [entries]
    refine Tree.sorted_le_link ?_ (kept object recorded.stored) recorded.fell
    intro ref member
    obtain ⟨map, live, -⟩ := accounted.entries others object recorded.stored ref member
    have isNew : Map.startOf next store.mapObjs.nextRef = event.start.toNat := by
      rw [Map.startOf, recorded.allocated, Heap.get?_alloc_nextRef]
      rfl
    have isOld : Map.startOf next ref = map.start.toNat := by
      rw [Map.startOf, recorded.live_of_live live]
      rfl
    have reached : (store.mapObjs.alloc (Map.init event dso)).get? ref = some map :=
      Heap.get?_alloc_of_some _ live
    simp only [Maps.steerInsert, reached, isNew, isOld, BitVec.lt_def]
  · exact kept after stored

end Recorded

/-- Ranges as the kernel has them in one address space. -/
structure Layout (ranges : List Range) : Prop where
  proper : ∀ range ∈ ranges, range.start < range.stop
  disjoint : ranges.Pairwise Range.Disjoint

theorem Layout.eq_or_disjoint {ranges : List Range} (layout : Layout ranges) {first second : Range}
    (isFirst : first ∈ ranges) (isSecond : second ∈ ranges) :
    first = second ∨ first.Disjoint second := by
  by_cases same : first = second
  · exact .inl same
  · exact .inr (layout.disjoint.forall isFirst isSecond same)

section Search

variable {store : Store} {ranges : List Range} {maps : Ref Maps} {object : Maps} {ref : Ref Map}
  {map : Map}

theorem Map.startOf_of_live (live : store.mapObjs.get? ref = some map) :
    Map.startOf store ref = map.start.toNat := by
  simp [Map.startOf, live]

theorem Map.stopOf_of_live (live : store.mapObjs.get? ref = some map) :
    Map.stopOf store ref = map.stop.toNat := by
  simp [Map.stopOf, live]

theorem Maps.steer_eq (live : store.mapObjs.get? ref = some map) (ip : U64) :
    Maps.steer store ip ref = if ip.toNat < Map.startOf store ref then .lt
      else if Map.stopOf store ref ≤ ip.toNat then .gt else .eq := by
  simp only [Maps.steer, live, Map.startOf_of_live live, Map.stopOf_of_live live, BitVec.lt_def,
    BitVec.le_def]

theorem Maps.steer_eq_eq (live : store.mapObjs.get? ref = some map) (ip : U64) :
    Maps.steer store ip ref = .eq ↔ (map.range store).Covers ip := by
  simp only [Maps.steer, live, Map.range, Range.Covers]
  by_cases below : ip < map.start
  · simp [below]
  · by_cases above : map.stop ≤ ip
    · simp [below, above]
    · simp [below, above, BitVec.not_lt.mp below, BitVec.not_le.mp above]

/-- The ranges of the maps are proper, and any two of them are the same or do not
overlap. -/
structure Maps.Apart (store : Store) (object : Maps) : Prop where
  proper : ∀ ref ∈ object.entries.toList, ∀ map, store.mapObjs.get? ref = some map →
    map.start < map.stop
  apart : ∀ first ∈ object.entries.toList, ∀ second ∈ object.entries.toList, ∀ map map',
    store.mapObjs.get? first = some map → store.mapObjs.get? second = some map' →
    (map.start = map'.start ∧ map.stop = map'.stop) ∨
      (map.range store).Disjoint (map'.range store)

/-- Ranges that do not overlap are ordered as a search for an address expects. -/
theorem Maps.Apart.steered (apart : object.Apart store)
    (live : ∀ ref ∈ object.entries.toList, ∃ map, store.mapObjs.get? ref = some map)
    (sorted : object.entries.toList.Pairwise fun first second =>
      Map.startOf store first ≤ Map.startOf store second) (ip : U64) :
    Tree.Steered (Maps.steer store ip) object.entries.toList := by
  have agree : ∀ ref ∈ object.entries.toList, Maps.steer store ip ref =
      if ip.toNat < Map.startOf store ref then .lt
      else if Map.stopOf store ref ≤ ip.toNat then .gt else .eq := by
    intro ref member
    obtain ⟨map, isLive⟩ := live ref member
    exact Maps.steer_eq isLive ip
  refine Tree.steered_of_apart agree ?_ ?_ sorted
  · intro ref member
    obtain ⟨map, isLive⟩ := live ref member
    rw [Map.startOf_of_live isLive, Map.stopOf_of_live isLive]
    exact apart.proper ref member map isLive
  · intro first isFirst second isSecond
    obtain ⟨map, isLive⟩ := live first isFirst
    obtain ⟨map', isLive'⟩ := live second isSecond
    rw [Tree.Apart, Map.startOf_of_live isLive, Map.stopOf_of_live isLive,
      Map.startOf_of_live isLive', Map.stopOf_of_live isLive']
    rcases apart.apart first isFirst second isSecond map map' isLive isLive' with same | disjoint
    · exact .inl ⟨congrArg _ same.1, congrArg _ same.2⟩
    · exact .inr disjoint

/-- A search among ranges that are apart finds one around an address exactly when
there is one. -/
theorem Maps.find_of_apart (stored : store.maps.get? maps = some object)
    (live : ∀ ref ∈ object.entries.toList, ∃ map, store.mapObjs.get? ref = some map)
    (sorted : object.entries.toList.Pairwise fun first second =>
      Map.startOf store first ≤ Map.startOf store second)
    (apart : object.Apart store) (ip : U64) :
    (Maps.find store maps ip = .ok none ∧ ∀ ref ∈ object.entries.toList, ∀ map,
        store.mapObjs.get? ref = some map → ¬ (map.range store).Covers ip) ∨
      ∃ ref ∈ object.entries.toList, ∃ map, Maps.find store maps ip = .ok (some ref) ∧
        store.mapObjs.get? ref = some map ∧ (map.range store).Covers ip := by
  have steered := apart.steered live sorted ip
  unfold Maps.find
  rw [deref_eq_ok_iff.mpr stored, ok_bind]
  cases found : object.entries.find? (Maps.steer store ip) with
  | none =>
      refine .inl ⟨rfl, fun ref member map isLive covers => ?_⟩
      exact (Tree.find?_eq_none steered).mp found ref member
        ((Maps.steer_eq_eq isLive ip).mpr covers)
  | some ref =>
      obtain ⟨member, stopped⟩ := Tree.find?_eq_some found
      obtain ⟨map, isLive⟩ := live ref member
      simp only [deref_eq_ok_iff.mpr isLive, ok_bind, pure_eq_ok]
      exact .inr ⟨ref, member, map, rfl, isLive, (Maps.steer_eq_eq isLive ip).mp stopped⟩

/-- A search among ranges of a layout finds the one around an address exactly when there
is one. -/
theorem Maps.find_of_layout {drawn : List Range} (accounted : store.Accounted)
    (stored : store.maps.get? maps = some object) (within : store.Within ranges maps)
    (complete : ∀ range ∈ ranges, store.Has maps range) (layout : Layout drawn)
    (inside : ∀ range ∈ ranges, range ∈ drawn) (ip : U64) :
    (Maps.find store maps ip = .ok none ∧ ∀ range ∈ ranges, ¬ range.Covers ip) ∨
      ∃ ref map, Maps.find store maps ip = .ok (some ref) ∧
        store.mapObjs.get? ref = some map ∧ map.range store ∈ ranges ∧
        (map.range store).Covers ip := by
  have inRanges : ∀ ref ∈ object.entries.toList, ∀ map, store.mapObjs.get? ref = some map →
      map.range store ∈ ranges := by
    intro ref member map isLive
    exact within.member _ ⟨object, ref, map, stored, member, isLive, rfl⟩
  have live : ∀ ref ∈ object.entries.toList, ∃ map, store.mapObjs.get? ref = some map := by
    intro ref member
    obtain ⟨map, isLive, -⟩ := accounted.entries maps object stored ref member
    exact ⟨map, isLive⟩
  have apart : object.Apart store := by
    refine ⟨fun ref member map isLive => layout.proper _
      (inside _ (inRanges ref member map isLive)), ?_⟩
    intro first isFirst second isSecond map map' isLive isLive'
    rcases layout.eq_or_disjoint (inside _ (inRanges first isFirst map isLive))
      (inside _ (inRanges second isSecond map' isLive')) with same | disjoint
    · simp only [Map.range, Range.mk.injEq] at same
      exact .inl ⟨same.1, same.2.1⟩
    · exact .inr disjoint
  rcases Maps.find_of_apart stored live (within.sorted object stored) apart ip with
    ⟨found, none⟩ | ⟨ref, member, map, found, isLive, covers⟩
  · refine .inl ⟨found, fun range offered covers => ?_⟩
    obtain ⟨object', ref, map, stored', member, isLive, rfl⟩ := complete range offered
    cases stored.symm.trans stored'
    exact none ref member map isLive covers
  · exact .inr ⟨ref, map, found, isLive, inRanges ref member map isLive, covers⟩

/-- A search finds the range around an address exactly when there is one. -/
theorem Maps.find_of_within (accounted : store.Accounted)
    (stored : store.maps.get? maps = some object) (within : store.Within ranges maps)
    (complete : ∀ range ∈ ranges, store.Has maps range) (layout : Layout ranges) (ip : U64) :
    (Maps.find store maps ip = .ok none ∧ ∀ range ∈ ranges, ¬ range.Covers ip) ∨
      ∃ ref map, Maps.find store maps ip = .ok (some ref) ∧
        store.mapObjs.get? ref = some map ∧ map.range store ∈ ranges ∧
        (map.range store).Covers ip :=
  Maps.find_of_layout accounted stored within complete layout (fun _ member => member) ip

end Search

end DwBpf
