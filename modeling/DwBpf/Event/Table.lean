import DwBpf.Event.Disk
import Mathlib.Tactic.Ring

/-! # The unwind table in memory

`find_proc_info` tells libunwind at which addresses the binary search table of
`.eh_frame_hdr` is, and libunwind reads it from there with `access_mem`. The first
goes by the map around the instruction pointer and the second by the map around
the address, and there are only maps of executable segments. The table is read
back exactly where the latter map shows the same bytes (`DwBpf.table_read_iff`).
-/

namespace DwBpf

variable {disk : Disk} {store next : Store} {info : UnwindInfo} {os : Os} {elf : ElfAnswers}
  {ip addr : U64} {map : Map} {dso : Dso}

section Addresses

variable {spec : UnwindSpec}

/-- The map of the instruction pointer takes the section back to its offset. -/
theorem DynInfo.mapIp_segbase (map : Map) (spec : UnwindSpec) :
    map.mapIp (DynInfo.of map spec).segbase = spec.segbase := by
  unfold Map.mapIp DynInfo.of
  ring

theorem DynInfo.toNat_mapIp (above : (DynInfo.of map spec).tableData.toNat ≤ addr.toNat)
    (small : spec.tableData.toNat + (addr.toNat - (DynInfo.of map spec).tableData.toNat) < 2 ^ 64) :
    (map.mapIp addr).toNat =
      spec.tableData.toNat + (addr.toNat - (DynInfo.of map spec).tableData.toNat) := by
  have back : map.mapIp addr = spec.tableData + (addr - (DynInfo.of map spec).tableData) := by
    unfold Map.mapIp DynInfo.of
    ring
  rw [back, BitVec.toNat_add, BitVec.toNat_sub_of_le (BitVec.le_def.mpr above),
    Nat.mod_eq_of_lt small]

theorem mul_div_eight {count : U64} (short : 8 * count.toNat < 2 ^ 64) : count * 8 / 8 = count := by
  have eight : (8 : U64).toNat = 8 := rfl
  apply BitVec.eq_of_toNat_eq
  rw [BitVec.toNat_udiv, BitVec.toNat_mul, eight, Nat.mod_eq_of_lt (by omega)]
  omega

theorem DynInfo.toNat_tableLen (map : Map) (short : 8 * spec.fdeCount.toNat < 2 ^ 64) :
    (DynInfo.of map spec).tableLen.toNat = spec.fdeCount.toNat :=
  congrArg BitVec.toNat (mul_div_eight short)

end Addresses

/-- The map around the address has there the eight bytes that are at a position of the
file. -/
def Store.Shows (disk : Disk) (store : Store) (info : UnwindInfo) (addr : U64) (file : File)
    (position : Nat) : Prop :=
  ∃ map dso, findMap store info addr = .ok (some map) ∧ store.dsos.get? map.dso = some dso ∧
    (map.mapIp addr).toNat + 8 ≤ (disk.files dso.longName).size ∧
    ((disk.files dso.longName).bytes.drop (map.mapIp addr).toNat).take 8 =
      (file.bytes.drop position).take 8

/-- The map shows the bytes of a file if it is a map of it with the same distance between
addresses and offsets. -/
theorem Store.shows_of_map {other : Map} (found : findMap store info addr = .ok (some map))
    (live : store.dsos.get? map.dso = some dso)
      (apart : map.start - map.pgoff = other.start - other.pgoff)
    (within : (other.mapIp addr).toNat + 8 ≤ (disk.files dso.longName).size) :
    store.Shows disk info addr (disk.files dso.longName) (other.mapIp addr).toNat := by
  have same : map.mapIp addr = other.mapIp addr := by
    calc map.mapIp addr = addr - (map.start - map.pgoff) := by unfold Map.mapIp; ring
      _ = addr - (other.start - other.pgoff) := by rw [apart]
      _ = other.mapIp addr := by unfold Map.mapIp; ring
  refine ⟨map, dso, found, live, ?_, ?_⟩
  · rw [same]
    exact within
  · rw [same]

theorem Store.shows_quiet_iff {file : File} {position : Nat} (quiet : store.Quiet next) :
    next.Shows disk info addr file position ↔ store.Shows disk info addr file position := by
  constructor
  · rintro ⟨map, dso, found, live, within, same⟩
    obtain ⟨before, wasLive, core⟩ := quiet.was_dso live
    rw [show dso.longName = before.longName from congrArg Prod.fst core] at within same
    exact ⟨map, before, (findMap_of_quiet quiet addr).symm.trans found, wasLive, within, same⟩
  · rintro ⟨map, dso, found, live, within, same⟩
    obtain ⟨after, afterLive, core⟩ := quiet.live_dso live
    rw [← show after.longName = dso.longName from congrArg Prod.fst core] at within same
    exact ⟨map, after, (findMap_of_quiet quiet addr).trans found, afterLive, within, same⟩

theorem File.length_take_drop {file : File} {position size : Nat}
    (within : position + size ≤ file.size) :
    ((file.bytes.drop position).take size).length = size := by
  rw [List.length_take, List.length_drop]
  rw [File.size] at within
  omega

/-- A word outside the snapshot is the one that the file of the map around its address
has there. -/
theorem accessMem_word_iff (ready : store.Ready info) (onDisk : store.OnDisk disk)
    (sized : 0 < info.uc.size.toInt) (outside : ¬ info.uc.Inside addr)
    (answered : (Request.accessMem addr false os).Answered disk info store) (value : U64) :
    (∃ next, accessMem os store info addr false = .ok ((0, some value), next)) ↔
      addr.toNat + 8 < 2 ^ 64 ∧ ∃ map dso, findMap store info addr = .ok (some map) ∧
        store.dsos.get? map.dso = some dso ∧
        (map.mapIp addr).toNat + 8 ≤ (disk.files dso.longName).size ∧
        value = littleEndian 64
          (((disk.files dso.longName).bytes.drop (map.mapIp addr).toNat).take 8) := by
  by_cases wraps : addr + 8 < addr
  · have long := (UnwindCtx.wraps_iff addr).mp wraps
    refine iff_of_false ?_ fun short => absurd short.1 (Nat.not_lt.mpr long)
    rintro ⟨next, read⟩
    rw [accessMem, if_neg (UnwindCtx.reads_of_sized sized), regValue_sp, ok_bind,
      if_pos wraps] at read
    cases read
  · have short : addr.toNat + 8 < 2 ^ 64 :=
      Nat.lt_of_not_le fun long => wraps ((UnwindCtx.wraps_iff addr).mpr long)
    have missed : ¬ info.uc.snapshots (info.uc.uregs .sp) addr = true :=
      fun snapshot => outside (UnwindCtx.inside_of_snapshots sized wraps snapshot)
    rw [and_iff_right short, accessMem_of_not_snapshots sized wraps missed]
    rcases ready.findMap addr with unmapped | ⟨map, dso, found, live⟩
    · refine iff_of_false ?_ ?_
      · rw [accessDsoMem, unmapped]
        rintro ⟨next, read⟩
        cases read
      · rintro ⟨map, dso, found, -⟩
        cases unmapped.symm.trans found
    · have asks : (Request.accessMem addr false os).consults info = some (addr, os) := by
        rw [Request.consults, if_neg]
        rw [not_or, not_or, not_or]
        exact ⟨Bool.false_ne_true, Int.not_le.mpr sized, wraps, missed⟩
      obtain ⟨next, -, read⟩ := accessDsoMem_of_onDisk onDisk found live
        (answered.file os map.dso dso ⟨addr, map, asks, found, rfl⟩ live)
      rw [read]
      constructor
      · rintro ⟨last, returned⟩
        split at returned
        · rename_i inside
          injection returned with returned
          injection returned with answer
          injection answer with status value
          exact ⟨map, dso, found, live, inside, (Option.some.inj value).symm⟩
        · cases returned
      · rintro ⟨map', dso', found', live', inside, rfl⟩
        cases found.symm.trans found'
        cases live.symm.trans live'
        rw [if_pos inside]
        exact ⟨next, rfl⟩

/-- A word outside the snapshot is read as it is in a file exactly when the map around
its address shows it. -/
theorem accessMem_reads_iff (ready : store.Ready info) (onDisk : store.OnDisk disk)
    (sized : 0 < info.uc.size.toInt) (outside : ¬ info.uc.Inside addr)
    (answered : (Request.accessMem addr false os).Answered disk info store) {file : File}
    {position : Nat} (within : position + 8 ≤ file.size) :
    (∃ next, accessMem os store info addr false =
      .ok ((0, some (littleEndian 64 ((file.bytes.drop position).take 8))), next)) ↔
      addr.toNat + 8 < 2 ^ 64 ∧ store.Shows disk info addr file position := by
  rw [accessMem_word_iff ready onDisk sized outside answered]
  apply and_congr_right
  intro short
  constructor
  · rintro ⟨map, dso, found, live, inside, words⟩
    refine ⟨map, dso, found, live, inside, littleEndian_injective ?_ ?_ words.symm⟩
    · rw [File.length_take_drop inside, File.length_take_drop within]
    · rw [File.length_take_drop inside]
  · rintro ⟨map, dso, found, live, inside, same⟩
    exact ⟨map, dso, found, live, inside, congrArg _ same.symm⟩

/-- The table that is handed to libunwind was decoded from the section of the map's file. -/
theorem spec_of_findProcInfo {after : Store} {searched status : Int} {di : DynInfo}
    (onDisk : next.OnDisk disk) (quiet : store.Quiet next)
    (found : findMap store info ip = .ok (some map)) (live : store.dsos.get? map.dso = some dso)
    (answered : (Request.findProcInfo ip os elf searched).Answered disk info next)
    (proc : findProcInfo os elf searched next info ip = .ok ((status, some di), after)) :
    ∃ spec, UnwindSpec.ofHeader elf.address (disk.hdrs dso.longName)
        (((disk.files dso.longName).bytes.drop (disk.hdrs dso.longName).toNat).take hdrSize) =
          some spec ∧
      DynInfo.of map spec = di ∧ after.OnDisk disk := by
  obtain ⟨dso', live', core⟩ := quiet.live_dso live
  have named : dso'.longName = dso.longName := congrArg Prod.fst core
  have found' := (findMap_of_quiet quiet ip).trans found
  obtain ⟨other, otherOnDisk, ran⟩ := findProcInfo_of_onDisk onDisk found' live'
    (answered.file os map.dso dso' ⟨ip, map, rfl, found', rfl⟩ live')
    (answered.hdr ip os elf searched map dso' rfl found' live') searched
  rw [proc, named] at ran
  cases decoded : disk.spec elf.address dso.longName with
  | none =>
      rw [decoded] at ran
      cases ran
  | some spec =>
      rw [decoded] at ran
      cases ran
      unfold Disk.spec at decoded
      split at decoded
      · exact ⟨spec, decoded, rfl, otherOnDisk⟩
      · cases decoded

/-- **The unwind table.** In every state that recording maps leads to, and wherever a
walk over the stack of one of its threads calls `find_proc_info`, the table that is
handed to libunwind has the length of the table of the section, its segment base is
where the section is, and at every later point of the walk a word of the table is read
back exactly when the map around its address shows the bytes that the map of the
instruction pointer does. -/
theorem table_read_iff {calls : List Call} {replies : List Reply} {machine : Machine}
    (ran : runAll Machine.step calls Machine.new = .ok (replies, machine))
    (records : ∀ call ∈ calls, call.records = true) {th : Ref Thread} {thread : Thread}
    (held : machine.Holds th thread) {uc : UnwindCtx} (sized : 0 < uc.size.toInt) {store : Store}
    (before : machine.store.Walked disk ⟨uc, th⟩ store) {ip : U64} {os : Os} {elf : ElfAnswers}
    {searched status : Int} {di : DynInfo} {after : Store}
    (answered : (Request.findProcInfo ip os elf searched).Answered disk ⟨uc, th⟩ store)
    (proc : findProcInfo os elf searched store ⟨uc, th⟩ ip = .ok ((status, some di), after))
    {last : Store} (later : after.Walked disk ⟨uc, th⟩ last) {map : Map} {dso : Dso}
    (found : findMap machine.store ⟨uc, th⟩ ip = .ok (some map))
    (live : machine.store.dsos.get? map.dso = some dso)
    (hdr : EhFrameHdr (disk.files dso.longName) (disk.hdrs dso.longName).toNat)
    (ptrKnown : SizeKnown hdr.ptrEnc) (countKnown : SizeKnown hdr.countEnc) :
    map.mapIp di.segbase = disk.hdrs dso.longName ∧ di.tableLen.toNat = hdr.count ∧
      ∀ addr os', di.tableData.toNat ≤ addr.toNat →
        addr.toNat + 8 ≤ di.tableData.toNat + 8 * di.tableLen.toNat → ¬ uc.Inside addr →
        (Request.accessMem addr false os').Answered disk ⟨uc, th⟩ last →
        ((∃ next, accessMem os' last ⟨uc, th⟩ addr false =
            .ok ((0, some (littleEndian 64 (((disk.files dso.longName).bytes.drop
              (hdr.table + (addr.toNat - di.tableData.toNat))).take 8))), next)) ↔
          addr.toNat + 8 < 2 ^ 64 ∧ machine.store.Shows disk ⟨uc, th⟩ addr
            (disk.files dso.longName) (map.mapIp addr).toNat) := by
  have quiet := (before.quiet.trans (quiet_findProcInfo proc)).trans later.quiet
  have ready : machine.store.Ready ⟨uc, th⟩ :=
    Machine.ready_of_run ran held (rfl : runAll (Request.step ⟨uc, th⟩) [] machine.store = _)
  obtain ⟨spec, decoded, rfl, afterOnDisk⟩ := spec_of_findProcInfo
    (before.onDisk (Machine.onDisk_of_run disk ran records)) before.quiet found live answered proc
  obtain ⟨segbase, tableData, fdeCount⟩ :=
    UnwindSpec.ofHeader_of_wellFormed hdr ptrKnown countKnown decoded
  have fits := hdr.fits
  have bound := (disk.files dso.longName).length_lt
  rw [File.size] at fits
  have tableLen : (DynInfo.of map spec).tableLen.toNat = hdr.count :=
    (DynInfo.toNat_tableLen map (by omega)).trans fdeCount
  refine ⟨(DynInfo.mapIp_segbase map spec).trans segbase, tableLen, ?_⟩
  intro addr os' above below outside answers
  have table : hdr.table = (disk.hdrs dso.longName).toNat + 4 + hdr.ptrSize + hdr.countSize := rfl
  have position : (map.mapIp addr).toNat =
      hdr.table + (addr.toNat - (DynInfo.of map spec).tableData.toNat) := by
    rw [← tableData]
    exact DynInfo.toNat_mapIp above (by omega)
  have within : (map.mapIp addr).toNat + 8 ≤ (disk.files dso.longName).size := by
    rw [File.size]
    omega
  rw [← position, accessMem_reads_iff (ready.quiet quiet) (later.onDisk afterOnDisk) sized outside
    answers within, Store.shows_quiet_iff quiet]

/-- A section with a table of one entry. -/
def oneEntry : List Byte :=
  [1, 0x1b, 0x03, 0x3b, 0x10, 0, 0, 0, 1, 0, 0, 0, 0x20, 0, 0, 0, 0x30, 0, 0, 0]

theorem length_oneEntry : oneEntry.length = 20 := rfl

/-- All files have this section at the offset. -/
def Disk.oneEntryAt (offset : U32) : Disk where
  files := fun _ => ⟨List.replicate offset.toNat 0 ++ oneEntry, by
    have := offset.isLt
    rw [List.length_append, List.length_replicate, length_oneEntry]
    omega⟩
  hdrs := fun _ => offset.setWidth 64

section OneEntry

variable (offset : U32) (name : List Char)

theorem Disk.toNat_oneEntryAt : ((Disk.oneEntryAt offset).hdrs name).toNat = offset.toNat :=
  BitVec.toNat_setWidth_of_le (by decide)

theorem Disk.drop_oneEntryAt (index : Nat) :
    ((Disk.oneEntryAt offset).files name).bytes.drop
      (((Disk.oneEntryAt offset).hdrs name).toNat + index) = oneEntry.drop index := by
  have length : (List.replicate offset.toNat (0 : Byte)).length = offset.toNat :=
    List.length_replicate
  rw [Disk.toNat_oneEntryAt, ← length]
  exact List.drop_length_add_append index

theorem Disk.size_oneEntryAt : ((Disk.oneEntryAt offset).files name).size = offset.toNat + 20 := by
  unfold File.size Disk.oneEntryAt
  rw [List.length_append, List.length_replicate, length_oneEntry]

/-- The section is well-formed. -/
def Disk.oneEntryAtHdr : EhFrameHdr ((Disk.oneEntryAt offset).files name)
    ((Disk.oneEntryAt offset).hdrs name).toNat where
  ptrEnc := 0x1b
  countEnc := 0x03
  ptrSize := 4
  countSize := 4
  count := 1
  start := by
    rw [← Nat.add_zero (((Disk.oneEntryAt offset).hdrs name).toNat), Disk.drop_oneEntryAt]
    rfl
  ptrSized := rfl
  countSized := rfl
  absolute := .inr rfl
  counted := by
    rw [Nat.add_assoc, Disk.drop_oneEntryAt]
    rfl
  fits := by
    rw [Disk.size_oneEntryAt, Disk.toNat_oneEntryAt]

theorem Disk.oneEntryAtHdr_known : SizeKnown (Disk.oneEntryAtHdr offset name).ptrEnc ∧
    SizeKnown (Disk.oneEntryAtHdr offset name).countEnc :=
  ⟨.inr (.inr (by change (0x1b : Byte) &&& 7 ≠ 0; decide)),
    .inr (.inr (by change (0x03 : Byte) &&& 7 ≠ 0; decide))⟩

/-- What is found out about the files. -/
theorem Disk.spec_oneEntryAt (present : 0 < offset.toNat) (address : U64) :
    (Disk.oneEntryAt offset).spec address name =
      some ⟨12 + offset.setWidth 64, offset.setWidth 64, 1⟩ := by
  have nonzero : (Disk.oneEntryAt offset).hdrs name ≠ 0 := by
    intro zero
    have same := Disk.toNat_oneEntryAt offset name
    rw [zero] at same
    exact absurd same (Nat.ne_of_lt present)
  have within : ((Disk.oneEntryAt offset).hdrs name).toNat + hdrSize ≤
      ((Disk.oneEntryAt offset).files name).size := by
    rw [Disk.size_oneEntryAt, Disk.toNat_oneEntryAt]
  have bytes := Disk.drop_oneEntryAt offset name 0
  rw [Nat.add_zero] at bytes
  rw [Disk.spec, if_pos ⟨nonzero, within⟩, bytes]
  rfl

/-- The answers of an operating system that serves the files. -/
def Disk.oneEntryOs : Os := ((Disk.oneEntryAt offset).files []).served

theorem Disk.answered_findProcInfo (info : UnwindInfo) (store : Store) (ip address : U64)
    (searched : Int) :
    (Request.findProcInfo ip (Disk.oneEntryOs offset)
      ⟨address, offset.setWidth 64⟩ searched).Answered
      (Disk.oneEntryAt offset) info store where
  file := by
    rintro os ref dso ⟨ip, map, asks, -⟩ -
    cases asks
    exact File.served_serves _
  hdr := by
    intro ip os elf searched map dso same _ _
    cases same
    rfl

theorem Disk.answered_accessMem (info : UnwindInfo) (store : Store) (addr : U64) :
    (Request.accessMem addr false (Disk.oneEntryOs offset)).Answered (Disk.oneEntryAt offset) info
      store where
  file := by
    rintro os ref dso ⟨ip, map, asks, -⟩ -
    obtain ⟨-, rfl, -⟩ : _ ∧ os = Disk.oneEntryOs offset ∧ accessMem _ store info addr false = _ :=
      accessMem_of_consults asks
    exact File.served_serves _
  hdr := fun _ _ _ _ _ _ same => nomatch same

end OneEntry

/-- A call that reads the lines of a file with an executable segment and one behind it
that can only be read. -/
def Call.mapSegments (tgid tid : Pid) : Call :=
  .threadMap tgid tid
    (some ("00400000-00401000 r-xp 00000000 fd:03 960637 /bin/ls\n" ++
      "00401000-00402000 r--p 00001000 fd:03 960637 /bin/ls\n").toList)
    ⟨⟨0, 0, 0, 0, 0, 0, 0, 0, 0, 0, 0, []⟩, fun _ => '\x00'⟩ true

set_option maxRecDepth 4000 in
/-- Only the executable segment is recorded. -/
theorem mapped_of_mapSegments :
    ∃ replies machine thread map dso, runAll Machine.step [.mapSegments 1 1] Machine.new =
      .ok (replies, machine) ∧ machine.Holds ⟨0⟩ thread ∧
      (∀ uc, findMap machine.store ⟨uc, ⟨0⟩⟩ 0x400000 = .ok (some map)) ∧
      (∀ uc, findMap machine.store ⟨uc, ⟨0⟩⟩ 0x40004c = .ok (some map)) ∧
      (∀ uc, findMap machine.store ⟨uc, ⟨0⟩⟩ 0x40100c = .ok none) ∧
      machine.store.dsos.get? map.dso = some dso ∧ map.start = 0x400000 ∧ map.pgoff = 0 := by
  refine ⟨_, _, _, _, _, rfl, ⟨⟨1, ?_⟩, rfl⟩, fun uc => rfl, fun uc => rfl, fun uc => rfl, rfl, rfl,
    rfl⟩
  decide

/-- The table of the section is handed to libunwind wherever the section is. -/
theorem handed_of_onDisk {offset : U32} (present : 0 < offset.toNat)
    (onDisk : store.OnDisk (Disk.oneEntryAt offset))
    (found : findMap store info ip = .ok (some map)) (live : store.dsos.get? map.dso = some dso) :
    ∃ after, findProcInfo (Disk.oneEntryOs offset) ⟨0, offset.setWidth 64⟩ 0 store info ip =
      .ok ((0, some (DynInfo.of map ⟨12 + offset.setWidth 64, offset.setWidth 64, 1⟩)), after) := by
  obtain ⟨after, -, proc⟩ := findProcInfo_of_onDisk onDisk found live (File.served_serves _)
    (rfl : (⟨0, offset.setWidth 64⟩ : ElfAnswers).sectionOffset = _) 0
  rw [Disk.spec_oneEntryAt offset dso.longName present] at proc
  exact ⟨after, proc⟩

theorem Store.walked_refl (store : Store) : store.Walked disk info store :=
  ⟨[], [], trivial, rfl⟩

/-- In the executable segment the entry is read back. -/
theorem table_read_oneEntry :
    ∃ replies machine thread di after next, runAll Machine.step [.mapSegments 1 1] Machine.new =
      .ok (replies, machine) ∧ machine.Holds ⟨0⟩ thread ∧
      findProcInfo (Disk.oneEntryOs 64) ⟨0, 64⟩ 0 machine.store ⟨.twoWords, ⟨0⟩⟩ 0x400000 =
        .ok ((0, some di), after) ∧ di.tableData = 0x40004c ∧
      accessMem (Disk.oneEntryOs 64) after ⟨.twoWords, ⟨0⟩⟩ 0x40004c false =
        .ok ((0, some (littleEndian 64 [0x20, 0, 0, 0, 0x30, 0, 0, 0])), next) := by
  obtain ⟨replies, machine, thread, map, dso, ran, held, found, foundEntry, -, live, start,
    pgoff⟩ :=
    mapped_of_mapSegments
  have records : ∀ call ∈ [Call.mapSegments 1 1], call.records = true := by
    intro call member
    rw [List.mem_singleton.mp member]
    rfl
  have present : 0 < (64 : U32).toNat := by decide
  obtain ⟨after, proc⟩ := handed_of_onDisk present (Machine.onDisk_of_run _ ran records)
    (found .twoWords) live
  have tableData : (DynInfo.of map ⟨12 + 64, 64, 1⟩).tableData = 0x40004c := by
    change map.start + (12 + 64) - map.pgoff = _
    rw [start, pgoff]
    rfl
  have outside : ¬ UnwindCtx.twoWords.Inside 0x40004c := fun inside => absurd inside.2 (by decide)
  have shows : machine.store.Shows (Disk.oneEntryAt 64) ⟨.twoWords, ⟨0⟩⟩ 0x40004c
      ((Disk.oneEntryAt 64).files dso.longName) (map.mapIp 0x40004c).toNat := by
    refine Store.shows_of_map (foundEntry .twoWords) live rfl ?_
    unfold Map.mapIp
    rw [start, pgoff, Disk.size_oneEntryAt]
    decide
  obtain ⟨-, -, reads⟩ := table_read_iff ran records held (by decide) (Store.walked_refl _)
    (Disk.answered_findProcInfo 64 _ _ _ _ _) proc (Store.walked_refl _) (found .twoWords) live
    (Disk.oneEntryAtHdr 64 dso.longName) (Disk.oneEntryAtHdr_known 64 _).1
    (Disk.oneEntryAtHdr_known 64 _).2
  have entry := Disk.drop_oneEntryAt 64 dso.longName 12
  have below : (0x40004c : U64).toNat + 8 ≤
      (DynInfo.of map ⟨12 + 64, 64, 1⟩).tableData.toNat + 8 * (1 * 8 / 8 : U64).toNat := by
    rw [tableData]
    decide
  obtain ⟨next, read⟩ := (reads 0x40004c (Disk.oneEntryOs 64) (Nat.le_of_eq (congrArg _ tableData))
    below outside (Disk.answered_accessMem 64 _ _ _)).mpr ⟨by decide, shows⟩
  have position : (Disk.oneEntryAtHdr 64 dso.longName).table +
      ((0x40004c : U64).toNat -
        (DynInfo.of map ⟨12 + (64 : U32).setWidth 64, (64 : U32).setWidth 64,
        1⟩).tableData.toNat) = ((Disk.oneEntryAt 64).hdrs dso.longName).toNat + 12 :=
    congrArg (fun address : U64 => (Disk.oneEntryAtHdr 64 dso.longName).table +
      ((0x40004c : U64).toNat - address.toNat)) tableData
  rw [position, entry] at read
  exact ⟨replies, machine, thread, _, after, next, ran, held, proc, tableData, read⟩

/-- In the segment behind it the entry cannot be read. -/
theorem table_behind_not_read :
    ∃ replies machine thread di after, runAll Machine.step [.mapSegments 1 1] Machine.new =
      .ok (replies, machine) ∧ machine.Holds ⟨0⟩ thread ∧
      findProcInfo (Disk.oneEntryOs 4096) ⟨0, 4096⟩ 0 machine.store ⟨.twoWords, ⟨0⟩⟩ 0x400000 =
        .ok ((0, some di), after) ∧ di.tableData = 0x40100c ∧ di.tableLen = 1 ∧
      (∃ hdr : EhFrameHdr ((Disk.oneEntryAt 4096).files "/bin/ls".toList)
        ((Disk.oneEntryAt 4096).hdrs "/bin/ls".toList).toNat, hdr.count = 1) ∧
      ¬ UnwindCtx.twoWords.Inside 0x40100c ∧
      accessMem (Disk.oneEntryOs 4096) after ⟨.twoWords, ⟨0⟩⟩ 0x40100c false =
        .ok ((-1, some 0), after) := by
  obtain ⟨replies, machine, thread, map, dso, ran, held, found, -, missed, live, start, pgoff⟩ :=
    mapped_of_mapSegments
  have records : ∀ call ∈ [Call.mapSegments 1 1], call.records = true := by
    intro call member
    rw [List.mem_singleton.mp member]
    rfl
  have present : 0 < (4096 : U32).toNat := by decide
  obtain ⟨after, proc⟩ := handed_of_onDisk present (Machine.onDisk_of_run _ ran records)
    (found .twoWords) live
  have outside : ¬ UnwindCtx.twoWords.Inside 0x40100c := fun inside => absurd inside.2 (by decide)
  have unmapped := (findMap_of_quiet (quiet_findProcInfo proc) 0x40100c).trans (missed .twoWords)
  have tableData : (DynInfo.of map ⟨12 + 4096, 4096, 1⟩).tableData = 0x40100c := by
    change map.start + (12 + 4096) - map.pgoff = _
    rw [start, pgoff]
    rfl
  exact ⟨replies, machine, thread, _, after, ran, held, proc, tableData, rfl,
    ⟨Disk.oneEntryAtHdr 4096 _, rfl⟩, outside,
      accessMem_of_unmapped (by decide) (by decide) (by decide) unmapped⟩

end DwBpf
