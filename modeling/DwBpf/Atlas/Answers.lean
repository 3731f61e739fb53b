import DwBpf.Atlas.Model
import DwBpf.Event.Disk

/-! # What libunwind is told

Where the operating system and libelf answer from the files of a disk, and a store has
what an atlas has (`DwBpf.Store.Depicts`), the callbacks answer libunwind what the atlas and
the disk say (`DwBpf.agree_requests`).
-/

namespace DwBpf

/-- The operating system and libelf answer the request from the disk, whichever of the
ranges it is about. -/
structure Request.FromDisk (disk : Disk) (ranges : List Range) (uc : UnwindCtx)
    (request : Request) : Prop where
  file : ∀ th addr os, request.consults ⟨uc, th⟩ = some (addr, os) →
    ∀ range ∈ ranges, range.Covers addr → os.Serves (disk.files range.name)
  hdr : ∀ ip os elf searched, request = .findProcInfo ip os elf searched →
    ∀ range ∈ ranges, range.Covers ip → elf.sectionOffset = disk.hdrs range.name

theorem Request.FromDisk.mono {disk : Disk} {fewer ranges : List Range} {uc : UnwindCtx}
    {request : Request} (fromDisk : request.FromDisk disk ranges uc)
    (fewer_le : ∀ range ∈ fewer, range ∈ ranges) : request.FromDisk disk fewer uc where
  file th addr os asks range member := fromDisk.file th addr os asks range (fewer_le range member)
  hdr ip os elf searched same range member :=
    fromDisk.hdr ip os elf searched same range (fewer_le range member)

/-- What is found in a store around an address is what the atlas has there. -/
structure Store.Depicts (disk : Disk) (atlas : Atlas) (info : UnwindInfo) (store : Store) :
    Prop where
  onDisk : store.OnDisk disk
  found : ∀ addr,
    (atlas.rangeAt info.uc.tgid addr = none ∧ findMap store info addr = .ok none) ∨
      ∃ map dso, atlas.rangeAt info.uc.tgid addr = some (map.range store) ∧
        findMap store info addr = .ok (some map) ∧ store.dsos.get? map.dso = some dso

section Requests

variable {disk : Disk} {atlas : Atlas} {info : UnwindInfo} {store next : Store} {request : Request}
  {requests : List Request}

/-- Work that leaves the maps and the names of the dsos alone leaves what is found around
addresses. -/
theorem Store.Depicts.quiet (depicts : store.Depicts disk atlas info) (quiet : store.Quiet next)
    (onDisk : next.OnDisk disk) : next.Depicts disk atlas info where
  onDisk := onDisk
  found := by
    intro addr
    obtain ⟨unknown, missed⟩ | ⟨map, dso, known, found, live⟩ := depicts.found addr
    · left
      rw [findMap_of_quiet quiet]
      exact ⟨unknown, missed⟩
    · obtain ⟨after, afterLive, -⟩ := quiet.live_dso live
      refine .inr ⟨map, after, ?_, ?_, afterLive⟩
      · rw [known, Map.range, Map.range, quiet.name_eq]
      · rw [findMap_of_quiet quiet, found]

/-- A word of the files is delivered as the atlas has it. -/
theorem accessDsoMem_of_depicts {os : Os} {addr : U64} (depicts : store.Depicts disk atlas info)
    (serves : ∀ range ∈ atlas.ranges info.uc.tgid, range.Covers addr →
      os.Serves (disk.files range.name)) :
    ∃ next status value, next.OnDisk disk ∧
      accessDsoMem os store info addr = .ok ((status, value), next) ∧
      atlas.memory disk info.uc.tgid addr =
        (if status = 0 then (0, some value) else (status, some 0)) := by
  obtain ⟨unknown, missed⟩ | ⟨map, dso, known, found, live⟩ := depicts.found addr
  · refine ⟨store, -1, 0, depicts.onDisk, ?_, ?_⟩
    · rw [accessDsoMem, missed]
      rfl
    · rw [Atlas.memory, unknown]
      rfl
  · obtain ⟨member, covers⟩ := Atlas.rangeAt_eq_some known
    have name : (map.range store).name = dso.longName := Dso.name_of_live live
    have served := serves _ member covers
    rw [name] at served
    obtain ⟨next, onDisk, read⟩ := accessDsoMem_of_onDisk depicts.onDisk found live served
    have word : disk.word (map.range store).name ((map.range store).offset addr) =
        if (map.mapIp addr).toNat + 8 ≤ (disk.files dso.longName).size then
          some (littleEndian 64
            (((disk.files dso.longName).bytes.drop (map.mapIp addr).toNat).take 8))
        else none := by
      rw [Disk.word, name]
      rfl
    by_cases within : (map.mapIp addr).toNat + 8 ≤ (disk.files dso.longName).size
    · rw [if_pos within] at word read
      refine ⟨next, 0, _, onDisk, read, ?_⟩
      rw [Atlas.memory, known]
      dsimp only
      rw [word]
      rfl
    · rw [if_neg within] at word read
      refine ⟨next, 1, 0, onDisk, read, ?_⟩
      rw [Atlas.memory, known]
      dsimp only
      rw [word]
      rfl

/-- A callback answers as the atlas says. -/
theorem agree_request (depicts : store.Depicts disk atlas info)
    (fromDisk : request.FromDisk disk (atlas.ranges info.uc.tgid) info.uc) :
    Agree (fun first second => first.1 = second ∧ first.2.Depicts disk atlas info)
      (request.step info store) (atlas.answer disk info.uc request) := by
  cases request with
  | findProcInfo ip os elf searched =>
      obtain ⟨unknown, missed⟩ | ⟨map, dso, known, found, live⟩ := depicts.found ip
      · rw [Request.step, findProcInfo, missed, Atlas.answer, Atlas.procInfo, unknown]
        exact ⟨rfl, depicts⟩
      · obtain ⟨member, covers⟩ := Atlas.rangeAt_eq_some known
        have name : (map.range store).name = dso.longName := Dso.name_of_live live
        have serves := fromDisk.file info.thread ip os rfl _ member covers
        have hdr := fromDisk.hdr ip os elf searched rfl _ member covers
        rw [name] at serves hdr
        obtain ⟨next, onDisk, read⟩ :=
          findProcInfo_of_onDisk depicts.onDisk found live serves hdr searched
        have answer : atlas.answer disk info.uc (.findProcInfo ip os elf searched) =
            .ok (if (disk.spec elf.address dso.longName).isSome then (searched, none)
              else (negEinval, none)) := by
          rw [Atlas.answer, Atlas.procInfo, known, ← name]
        rw [Request.step, answer]
        cases spec : disk.spec elf.address dso.longName with
        | none =>
            rw [spec] at read
            rw [read]
            exact ⟨rfl, depicts.quiet (quiet_findProcInfo read) onDisk⟩
        | some table =>
            rw [spec] at read
            rw [read]
            exact ⟨rfl, depicts.quiet (quiet_findProcInfo read) onDisk⟩
  | accessMem addr write os =>
      rw [Request.step, accessMem, Atlas.answer]
      by_cases ignored : write ∨ info.uc.size.toInt ≤ 0
      · rw [if_pos ignored, if_pos ignored]
        exact ⟨rfl, depicts⟩
      · rw [if_neg ignored, if_neg ignored, regValue_sp, ok_bind]
        by_cases wraps : addr + 8 < addr
        · rw [if_pos wraps, if_pos wraps]
          exact ⟨rfl, depicts⟩
        · rw [if_neg wraps, if_neg wraps]
          by_cases snapshot : info.uc.snapshots (info.uc.uregs .sp) addr = true
          · rw [if_pos snapshot, if_pos snapshot]
            cases info.uc.word (addr - info.uc.uregs .sp).toNat with
            | error failure => rfl
            | ok value => exact ⟨rfl, depicts⟩
          · rw [if_neg snapshot, if_neg snapshot]
            have asks : (Request.accessMem addr write os).consults ⟨info.uc, info.thread⟩ =
                some (addr, os) := by
              rw [Request.consults, if_neg]
              rw [not_or] at ignored
              rw [not_or, not_or, not_or]
              exact ⟨ignored.1, ignored.2, wraps, snapshot⟩
            obtain ⟨next, status, value, onDisk, read, memory⟩ :=
              accessDsoMem_of_depicts depicts (fromDisk.file info.thread addr os asks)
            have after := depicts.quiet (quiet_accessDsoMem read) onDisk
            rw [read, ok_bind, memory]
            dsimp only
            by_cases whole : status = 0
            · rw [if_pos whole, if_pos whole]
              exact ⟨rfl, after⟩
            · rw [if_neg whole, if_neg whole]
              exact ⟨rfl, after⟩
  | accessReg regnum write =>
      rw [Request.step, accessReg, Atlas.answer]
      cases write with
      | true => exact ⟨rfl, depicts⟩
      | false =>
          cases regValue info.uc.uregs (archRegId regnum) with
          | error failure => rfl
          | ok value => exact ⟨rfl, depicts⟩

/-- What libunwind is told about a sample is what the atlas says. -/
theorem agree_requests (depicts : store.Depicts disk atlas info)
    (fromDisk : ∀ request ∈ requests,
      request.FromDisk disk (atlas.ranges info.uc.tgid) info.uc) :
    Agree (fun first answers => first.1 = answers ∧ first.2.Depicts disk atlas info)
      (runAll (Request.step info) requests store)
      (requests.mapM (atlas.answer disk info.uc)) := by
  induction requests generalizing store with
  | nil => exact ⟨rfl, depicts⟩
  | cons request requests ih =>
      rw [List.mapM_cons]
      refine (agree_request depicts (fromDisk request (List.mem_cons_self ..))).bind ?_
      intro first answer related
      obtain ⟨same, depictsNext⟩ := related
      refine (ih depictsNext fun later member =>
        fromDisk later (List.mem_cons_of_mem _ member)).bind ?_
      intro rest answers related
      exact ⟨congrArg₂ List.cons same related.1, related.2⟩

end Requests

end DwBpf
