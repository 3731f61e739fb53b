import DwBpf.Event.Enumeration
import DwBpf.Event.Table

/-! # The memory of the process

What a map shows of a file is in the memory of the process. `access_mem` looks for
the map around the first byte of a word and takes all eight bytes from its file, also
where the map ends within the word. It delivers the word of the memory exactly when
the maps go on with the same bytes (`DwBpf.mapped_word_iff`).
-/

namespace DwBpf

variable {disk : Disk} {store : Store} {info : UnwindInfo} {th : Ref Thread} {addr : U64}
  {memory : U64 → Byte} {range : Range} {map : Map} {dso : Dso}

/-- The byte that the file of the range has where the range has the address, or would have
it if it were longer. -/
def Disk.byteAt (disk : Disk) (range : Range) (addr : U64) : Option Byte :=
  (disk.files range.name).bytes[range.pgoff.toNat + (addr.toNat - range.start.toNat)]?

/-- A map with the range was recorded for the thread. -/
def Store.Records (store : Store) (th : Ref Thread) (range : Range) : Prop :=
  ∃ thread maps, store.threads.get? th = some thread ∧ thread.maps = some maps ∧
    store.Has maps range

/-- The memory has the bytes of the files where they were mapped. -/
def Store.Images (disk : Disk) (store : Store) (th : Ref Thread) (memory : U64 → Byte) : Prop :=
  ∀ range, store.Records th range → ∀ addr, range.Covers addr →
    disk.byteAt range addr = some (memory addr)

/-- The word of the memory at an address. -/
def wordAt (memory : U64 → Byte) (addr : U64) : U64 :=
  littleEndian 64 ((List.range 8).map fun index => memory (addr + BitVec.ofNat 64 index))

/-- The eight bytes at the address lie in recorded maps. -/
def Store.RecordsWord (store : Store) (th : Ref Thread) (addr : U64) : Prop :=
  ∀ index < 8, ∃ range, store.Records th range ∧ range.Covers (addr + BitVec.ofNat 64 index)

/-- Where the map around the address ends within a word that its file has, the bytes behind
it are in recorded maps, with the bytes that the file goes on with. -/
def Store.Continues (disk : Disk) (store : Store) (info : UnwindInfo) (addr : U64) : Prop :=
  ∀ map, findMap store info addr = .ok (some map) → addr.toNat + 8 < 2 ^ 64 →
    (disk.byteAt (map.range store) (addr + 7)).isSome = true →
    ∀ index < 8, map.stop ≤ addr + BitVec.ofNat 64 index →
      ∃ range, store.Records info.thread range ∧ range.Covers (addr + BitVec.ofNat 64 index) ∧
        disk.byteAt range (addr + BitVec.ofNat 64 index) =
          disk.byteAt (map.range store) (addr + BitVec.ofNat 64 index)

/-- Bytes in the middle of a list, one by one. -/
theorem take_drop_eq_map_iff {α : Type} {items : List α} {position size : Nat} {item : Nat → α} :
    (items.drop position).take size = (List.range size).map item ↔
      ∀ index < size, items[position + index]? = some (item index) := by
  constructor
  · intro same index small
    have eq := congrArg (fun list : List α => list[index]?) same
    simp only [List.getElem?_take_of_lt small, List.getElem?_drop] at eq
    rw [eq, List.getElem?_map, List.getElem?_range small]
    rfl
  · intro each
    apply List.ext_getElem?
    intro index
    by_cases small : index < size
    · rw [List.getElem?_take_of_lt small, List.getElem?_drop, each index small, List.getElem?_map,
        List.getElem?_range small]
      rfl
    · rw [List.getElem?_eq_none, List.getElem?_eq_none]
      · rw [List.length_map, List.length_range]
        omega
      · rw [List.length_take]
        omega

theorem toNat_add_index {index : Nat} (short : addr.toNat + 8 < 2 ^ 64) (small : index < 8) :
    (addr + BitVec.ofNat 64 index).toNat = addr.toNat + index := by
  rw [BitVec.toNat_add, BitVec.toNat_ofNat]
  omega

/-- The map that is found was recorded, and its range holds the address. -/
theorem records_of_findMap (found : findMap store info addr = .ok (some map)) :
    store.Records info.thread (map.range store) ∧ (map.range store).Covers addr := by
  obtain ⟨thread, isLive, rest⟩ := bind_eq_ok_iff.mp found
  cases has : thread.maps with
  | none =>
      rw [has] at rest
      cases rest
  | some maps =>
      rw [has] at rest
      obtain ⟨result, find, rest⟩ := bind_eq_ok_iff.mp rest
      cases result with
      | none => cases rest
      | some ref =>
          obtain ⟨map', isMap, done⟩ := bind_eq_ok_iff.mp rest
          cases done
          obtain ⟨object, isObject, rest⟩ := bind_eq_ok_iff.mp find
          cases searched : object.entries.find? (Maps.steer store addr) with
          | none =>
              rw [searched] at rest
              cases rest
          | some entry =>
              rw [searched] at rest
              obtain ⟨stored, -, done⟩ := bind_eq_ok_iff.mp rest
              cases done
              obtain ⟨member, stopped⟩ := Tree.find?_eq_some searched
              have live := deref_eq_ok_iff.mp isMap
              refine ⟨⟨thread, maps, deref_eq_ok_iff.mp isLive, has, object, ref, map,
                deref_eq_ok_iff.mp isObject, member, live, rfl⟩, ?_⟩
              exact (Maps.steer_eq_eq live addr).mp stopped

theorem Map.toNat_mapIp (covers : (map.range store).Covers addr)
    (inside : map.pgoff.toNat + (addr.toNat - map.start.toNat) < 2 ^ 64) :
    (map.mapIp addr).toNat = map.pgoff.toNat + (addr.toNat - map.start.toNat) := by
  have above : map.start ≤ addr := covers.1
  rw [Map.mapIp, BitVec.toNat_add, BitVec.toNat_sub_of_le above, Nat.mod_eq_of_lt (by omega)]
  omega

section Word

variable {index : Nat}

/-- The bytes of the word in the file, as the map has them or would have them. -/
theorem Disk.byteAt_index (live : store.dsos.get? map.dso = some dso)
    (covers : (map.range store).Covers addr) (short : addr.toNat + 8 < 2 ^ 64) (small : index < 8)
    (inside : map.pgoff.toNat + (addr.toNat - map.start.toNat) < 2 ^ 64) :
    disk.byteAt (map.range store) (addr + BitVec.ofNat 64 index) =
      (disk.files dso.longName).bytes[(map.mapIp addr).toNat + index]? := by
  have above : map.start.toNat ≤ addr.toNat := covers.1
  have name : (map.range store).name = dso.longName := Dso.name_of_live live
  have position : map.pgoff.toNat + (addr.toNat + index - map.start.toNat) =
      map.pgoff.toNat + (addr.toNat - map.start.toNat) + index := by
    omega
  rw [byteAt, name, toNat_add_index short small, Map.toNat_mapIp covers inside, ← position]
  rfl

/-- The file has the last byte of the word exactly if it has all of it. -/
theorem Disk.isSome_byteAt_iff (live : store.dsos.get? map.dso = some dso)
    (covers : (map.range store).Covers addr) (short : addr.toNat + 8 < 2 ^ 64)
    (inside : map.pgoff.toNat + (addr.toNat - map.start.toNat) < 2 ^ 64) :
    (disk.byteAt (map.range store) (addr + 7)).isSome = true ↔
      (map.mapIp addr).toNat + 8 ≤ (disk.files dso.longName).size := by
  rw [show addr + 7 = addr + BitVec.ofNat 64 7 from rfl,
    byteAt_index live covers short (by decide) inside, isSome_getElem?, File.size]
  omega

/-- A word of the file is the word of the memory exactly if the bytes are. -/
theorem word_eq_iff (live : store.dsos.get? map.dso = some dso)
    (covers : (map.range store).Covers addr) (short : addr.toNat + 8 < 2 ^ 64)
    (inside : map.pgoff.toNat + (addr.toNat - map.start.toNat) < 2 ^ 64)
    (within : (map.mapIp addr).toNat + 8 ≤ (disk.files dso.longName).size) :
    littleEndian 64 (((disk.files dso.longName).bytes.drop (map.mapIp addr).toNat).take 8) =
        wordAt memory addr ↔
      ∀ index < 8, disk.byteAt (map.range store) (addr + BitVec.ofNat 64 index) =
        some (memory (addr + BitVec.ofNat 64 index)) := by
  have length := File.length_take_drop within
  have bytes : ∀ index < 8, disk.byteAt (map.range store) (addr + BitVec.ofNat 64 index) =
      (disk.files dso.longName).bytes[(map.mapIp addr).toNat + index]? :=
    fun index small => Disk.byteAt_index live covers short small inside
  constructor
  · intro same index small
    have lists := littleEndian_injective (by simp [length]) (by rw [length]) same
    rw [bytes index small]
    exact take_drop_eq_map_iff.mp lists index small
  · intro each
    apply congrArg (littleEndian 64)
    apply take_drop_eq_map_iff.mpr
    intro index small
    rw [← bytes index small]
    exact each index small

end Word

/-- The operating system serves the file of the map around the address. -/
theorem Request.answered_served (found : findMap store info addr = .ok (some map))
    (live : store.dsos.get? map.dso = some dso) :
    (Request.accessMem addr false (disk.files dso.longName).served).Answered disk info store where
  file := by
    rintro os ref other ⟨ip, map', asks, isFound, rfl⟩ isLive
    obtain ⟨rfl, rfl, -⟩ : ip = addr ∧ os = (disk.files dso.longName).served ∧
      DwBpf.accessMem _ store info addr false = _ := accessMem_of_consults asks
    cases found.symm.trans isFound
    cases live.symm.trans isLive
    exact File.served_serves _
  hdr := fun _ _ _ _ _ _ same => nomatch same

/-- What `access_mem` delivers at the address is in recorded maps and in the memory. -/
def ReadsMemory (disk : Disk) (store : Store) (info : UnwindInfo) (memory : U64 → Byte)
    (addr : U64) : Prop :=
  ∀ os value next, (Request.accessMem addr false os).Answered disk info store →
    accessMem os store info addr false = .ok ((0, some value), next) →
    store.RecordsWord info.thread addr ∧ value = wordAt memory addr

/-- A word is that of the memory exactly if its bytes beyond the map go on in the file. -/
theorem readsMemory_iff (ready : store.Ready info) (onDisk : store.OnDisk disk)
    (sized : 0 < info.uc.size.toInt) (outside : ¬ info.uc.Inside addr)
    (images : store.Images disk info.thread memory) :
    ReadsMemory disk store info memory addr ↔ store.Continues disk info addr := by
  have inside : ∀ map, findMap store info addr = .ok (some map) →
      map.pgoff.toNat + (addr.toNat - map.start.toNat) < 2 ^ 64 := by
    intro map found
    obtain ⟨recorded, covers⟩ := records_of_findMap found
    have byte := images _ recorded addr covers
    have bound := (disk.files (map.range store).name).length_lt
    obtain ⟨below, -⟩ := List.getElem?_eq_some_iff.mp byte
    exact Nat.lt_trans below (by omega)
  constructor
  · intro reads map found short whole index small behind
    obtain ⟨dso, live⟩ : ∃ dso, store.dsos.get? map.dso = some dso := by
      rcases ready.findMap addr with unmapped | ⟨map', dso, found', live⟩
      · cases found.symm.trans unmapped
      · cases found.symm.trans found'
        exact ⟨dso, live⟩
    obtain ⟨recorded, covers⟩ := records_of_findMap found
    have within := (Disk.isSome_byteAt_iff live covers short (inside map found)).mp whole
    obtain ⟨next, read⟩ := (accessMem_word_iff ready onDisk sized outside
      (Request.answered_served found live) _).mpr ⟨short, map, dso, found, live, within, rfl⟩
    obtain ⟨word, value⟩ := reads _ _ next (Request.answered_served found live) read
    obtain ⟨range, isRecorded, isCovered⟩ := word index small
    have bytes := (word_eq_iff live covers short (inside map found) within).mp value
    refine ⟨range, isRecorded, isCovered, ?_⟩
    rw [images range isRecorded _ isCovered, bytes index small]
  · intro continues os value next answered read
    obtain ⟨short, map, dso, found, live, within, rfl⟩ :=
      (accessMem_word_iff ready onDisk sized outside answered value).mp ⟨next, read⟩
    obtain ⟨recorded, covers⟩ := records_of_findMap found
    have whole := (Disk.isSome_byteAt_iff live covers short (inside map found)).mpr within
    -- A byte of the word is in the map that was found, or in one that continues it.
    have each : ∀ index < 8, ∃ range, store.Records info.thread range ∧
        range.Covers (addr + BitVec.ofNat 64 index) ∧
        disk.byteAt range (addr + BitVec.ofNat 64 index) =
          disk.byteAt (map.range store) (addr + BitVec.ofNat 64 index) := by
      intro index small
      by_cases behind : map.stop ≤ addr + BitVec.ofNat 64 index
      · exact continues map found short whole index small behind
      · have above : map.start.toNat ≤ addr.toNat := covers.1
        refine ⟨map.range store, recorded, ⟨?_, BitVec.not_le.mp behind⟩, rfl⟩
        rw [BitVec.le_def, toNat_add_index short small]
        exact Nat.le_trans above (Nat.le_add_right _ _)
    refine ⟨fun index small => ?_, ?_⟩
    · obtain ⟨range, isRecorded, isCovered, -⟩ := each index small
      exact ⟨range, isRecorded, isCovered⟩
    · rw [word_eq_iff live covers short (inside map found) within]
      intro index small
      obtain ⟨range, isRecorded, isCovered, same⟩ := each index small
      rw [← same]
      exact images range isRecorded _ isCovered

/-- **Words of mapped files.** In every state that recording maps leads to, and wherever a
walk over the stack of one of its threads reads a word outside the snapshot, what is
delivered is in recorded maps and in the memory of the process exactly when the maps go
on with the bytes of the file. -/
theorem mapped_word_iff {calls : List Call} {replies : List Reply} {machine : Machine}
    (ran : runAll Machine.step calls Machine.new = .ok (replies, machine))
    (records : ∀ call ∈ calls, call.records = true) {thread : Thread}
    (held : machine.Holds th thread) {uc : UnwindCtx} (sized : 0 < uc.size.toInt)
    (before : machine.store.Walked disk ⟨uc, th⟩ store) (images : store.Images disk th memory)
    (outside : ¬ uc.Inside addr) :
    ReadsMemory disk store ⟨uc, th⟩ memory addr ↔ store.Continues disk ⟨uc, th⟩ addr := by
  have ready : machine.store.Ready ⟨uc, th⟩ :=
    Machine.ready_of_run ran held (rfl : runAll (Request.step ⟨uc, th⟩) [] machine.store = _)
  have onDisk := before.onDisk (Machine.onDisk_of_run disk ran records)
  exact readsMemory_iff (ready.quiet before.quiet) onDisk sized outside images

/-- All files are long enough to go on behind the executable segment, with zeros. -/
def Disk.zeros : Disk where
  files := fun _ => ⟨List.replicate 4112 0, by
    rw [List.length_replicate]
    decide⟩
  hdrs := fun _ => 0

theorem Disk.byteAt_zeros {start stop pgoff : U64} {name : List Char} (addr : U64)
    (within : pgoff.toNat + (addr.toNat - start.toNat) < 4112) :
    Disk.zeros.byteAt ⟨start, stop, pgoff, name⟩ addr = some 0 :=
  List.getElem?_replicate_of_lt within

/-- What was recorded for a thread is the range of an event. -/
theorem Machine.range_of_records {calls : List Call} {replies : List Reply} {machine : Machine}
    (ran : runAll Machine.step calls Machine.new = .ok (replies, machine))
    (recorded : machine.store.Records th range) :
    range ∈ (calls.flatMap Call.events).map MmapEvent.range := by
  obtain ⟨plain, matched, logged⟩ := Machine.logged_of_run ran
  obtain ⟨thread, maps, -, -, object, ref, map, -, -, live, rfl⟩ := recorded
  rw [matched.1.store] at live ⊢
  obtain ⟨event, isEvent, same⟩ := Option.map_eq_some_iff.mp (logged.ranges ref map live)
  rw [← same]
  exact List.mem_map_of_mem (List.mem_of_getElem? isEvent)

set_option maxRecDepth 4000 in
/-- Of two segments only the executable one is recorded. -/
theorem ranges_of_mapSegments :
    ([Call.mapSegments 1 1].flatMap Call.events).map MmapEvent.range =
      [⟨0x400000, 0x401000, 0, "/bin/ls".toList⟩] := rfl

set_option maxRecDepth 4000 in
theorem found_of_mapSegments :
    ∃ replies machine thread map dso, runAll Machine.step [.mapSegments 1 1] Machine.new =
      .ok (replies, machine) ∧ machine.Holds ⟨0⟩ thread ∧
      (∀ uc, findMap machine.store ⟨uc, ⟨0⟩⟩ 0x400000 = .ok (some map)) ∧
      (∀ uc, findMap machine.store ⟨uc, ⟨0⟩⟩ 0x400ffc = .ok (some map)) ∧
      machine.store.dsos.get? map.dso = some dso ∧ map.stop = 0x401000 ∧
      map.mapIp 0x400ffc = 0xffc := by
  refine ⟨_, _, _, _, _, rfl, ⟨⟨1, ?_⟩, rfl⟩, fun uc => rfl, fun uc => rfl, rfl, rfl, rfl⟩
  decide

/-- Memory of zeros has the bytes of the files. -/
theorem images_zeros {replies : List Reply} {machine : Machine}
    (ran : runAll Machine.step [.mapSegments 1 1] Machine.new = .ok (replies, machine))
    (th : Ref Thread) :
    machine.store.Images Disk.zeros th fun _ => 0 := by
  intro range recorded addr covers
  have member := Machine.range_of_records ran recorded
  rw [ranges_of_mapSegments] at member
  cases List.mem_singleton.mp member
  apply Disk.byteAt_zeros
  have below : addr.toNat < 0x401000 := covers.2
  change 0 + (addr.toNat - 0x400000) < 4112
  omega

theorem records_mapSegments : ∀ call ∈ [Call.mapSegments 1 1], call.records = true := by
  intro call member
  rw [List.mem_singleton.mp member]
  rfl

/-- The first word of the segment is delivered as it is in the memory. -/
theorem mapped_word_first :
    ∃ replies machine thread, runAll Machine.step [.mapSegments 1 1] Machine.new =
      .ok (replies, machine) ∧ machine.Holds ⟨0⟩ thread ∧
      machine.store.Images Disk.zeros ⟨0⟩ (fun _ => 0) ∧
      ReadsMemory Disk.zeros machine.store ⟨.twoWords, ⟨0⟩⟩ (fun _ => 0) 0x400000 := by
  obtain ⟨replies, machine, thread, map, dso, ran, held, found, -, live, stop, -⟩ :=
    found_of_mapSegments
  have outside : ¬ UnwindCtx.twoWords.Inside 0x400000 := fun inside => absurd inside.2 (by decide)
  have images := images_zeros ran ⟨0⟩
  refine ⟨replies, machine, thread, ran, held, images, ?_⟩
  rw [mapped_word_iff ran records_mapSegments held (by decide) (Store.walked_refl _) images outside]
  intro map' found' short whole index small behind
  cases (found .twoWords).symm.trans found'
  rw [BitVec.le_def, toNat_add_index short small, stop] at behind
  rw [show (0x400000 : U64).toNat = 0x400000 from rfl,
    show (0x401000 : U64).toNat = 0x401000 from rfl] at behind
  omega

/-- A word that starts four bytes before the end of the segment is delivered, and the last
four bytes are in no recorded map. -/
theorem word_across_not_mapped :
    ∃ replies machine thread, runAll Machine.step [.mapSegments 1 1] Machine.new =
      .ok (replies, machine) ∧ machine.Holds ⟨0⟩ thread ∧
      machine.store.Images Disk.zeros ⟨0⟩ (fun _ => 0) ∧ ¬ UnwindCtx.twoWords.Inside 0x400ffc ∧
      ¬ ReadsMemory Disk.zeros machine.store ⟨.twoWords, ⟨0⟩⟩ (fun _ => 0) 0x400ffc := by
  obtain ⟨replies, machine, thread, map, dso, ran, held, -, found, live, -, position⟩ :=
    found_of_mapSegments
  have outside : ¬ UnwindCtx.twoWords.Inside 0x400ffc := fun inside => absurd inside.2 (by decide)
  refine ⟨replies, machine, thread, ran, held, images_zeros ran _, outside, ?_⟩
  intro reads
  have ready : machine.store.Ready ⟨.twoWords, ⟨0⟩⟩ :=
    Machine.ready_of_run ran held (rfl : runAll (Request.step _) [] machine.store = _)
  have onDisk := Machine.onDisk_of_run Disk.zeros ran records_mapSegments
  have within : (map.mapIp 0x400ffc).toNat + 8 ≤ (Disk.zeros.files dso.longName).size := by
    rw [position, File.size]
    change _ ≤ (List.replicate 4112 (0 : Byte)).length
    rw [List.length_replicate]
    decide
  have answered : (Request.accessMem 0x400ffc false
      (Disk.zeros.files dso.longName).served).Answered Disk.zeros ⟨.twoWords, ⟨0⟩⟩ machine.store :=
    Request.answered_served (found .twoWords) live
  obtain ⟨next, read⟩ := (accessMem_word_iff ready onDisk (by decide) outside answered _).mpr
    ⟨by decide, map, dso, found .twoWords, live, within, rfl⟩
  obtain ⟨word, -⟩ := reads _ _ next answered read
  obtain ⟨range, recorded, covers⟩ := word 4 (by decide)
  have member := Machine.range_of_records ran recorded
  rw [ranges_of_mapSegments] at member
  cases List.mem_singleton.mp member
  exact absurd covers.2 (by decide)

end DwBpf
