import DwBpf.Bpf.Probe
import DwBpf.Unwind.Libunwind

/-! # The snapshot of a stack, from the probe to the unwinder

A submitted context holds the bytes of the user's stack that its size counts,
from its stack pointer on (`DwBpf.UnwindCtx.Captures`), on every way through
`get_unwind_ctx`. A word that `access_mem` takes from such a context is the
user's word at the address (`DwBpf.snapshot_sound`).
-/

namespace DwBpf

/-- The copy delivers the user's bytes from `source` on, except for those at the
end that it counts as not copied. -/
def StackCopy.Copies (copy : StackCopy) (user : U64 → Byte) (source : U64) : Prop :=
  ∃ left ≤ stackSize, copy.ret = BitVec.ofNat 64 left ∧ ∀ index : Fin stackSize,
    index.val + left < stackSize → copy.dst index = user (source + BitVec.ofNat 64 index.val)

/-- The saved registers are the same in both reads. -/
def Probe.Stable (probe : Probe) : Prop :=
  ∀ saved sp regs, probe.readSp saved = some sp → probe.readRegs saved = some regs → regs .sp = sp

/-- The snapshot holds the user's bytes from the stack pointer on. -/
structure UnwindCtx.Captures (uc : UnwindCtx) (user : U64 → Byte) : Prop where
  nonneg : 0 ≤ uc.size.toInt
  le : uc.size.toInt ≤ stackSize
  data : ∀ index : Fin stackSize, (index.val : Int) < uc.size.toInt →
    uc.data index = user (uc.uregs .sp + BitVec.ofNat 64 index.val)

/-- The little-endian word of the user at `addr`. -/
def userWord (user : U64 → Byte) (addr : U64) : U64 :=
  littleEndian 64 ((List.range 8).map fun index => user (addr + BitVec.ofNat 64 index))

variable {probe : Probe} {user : U64 → Byte} {uc last : UnwindCtx} {sp addr : U64}

namespace Probe

/-- A snapshot that is taken leaves the registers, and its size is what was copied. -/
theorem takeSnapshot_eq_true (taken : probe.takeSnapshot sp uc = (true, last)) :
    last.uregs = uc.uregs ∧ last.data = (bpfProbeReadStack (probe.copied sp)).2 ∧
      last.size = BitVec.ofNat 32 stackSize - (probe.copied sp).ret.setWidth 32 := by
  unfold takeSnapshot at taken
  dsimp only [bpfProbeReadStack] at taken
  split at taken
  · cases taken
  · split at taken
    · rename_i all
      cases taken
      refine ⟨rfl, rfl, ?_⟩
      rw [all]
      exact (BitVec.sub_zero _).symm
    · cases taken
      exact ⟨rfl, rfl, rfl⟩

/-- A snapshot starts at the stack pointer of its entry, also where that was
moved before. -/
theorem fill_eq_true {saved : SavedRegs} (stable : probe.Stable)
    (readSp : probe.readSp saved = some sp) (filled : probe.fill saved sp uc = (true, last)) :
    ∃ entry start, entry.uregs .sp = start ∧ probe.takeSnapshot start entry = (true, last) := by
  unfold fill at filled
  dsimp only at filled
  split at filled
  · cases filled
  · rename_i uregs readRegs
    split at filled
    · refine ⟨_, _, ?_, filled⟩
      exact Function.update_self PtReg.sp (sp - 16) uregs
    · exact ⟨_, _, stable saved sp uregs readSp readRegs, filled⟩

/-- Every context that is submitted holds what the copy delivers. -/
theorem takeSnapshot_captures (copies : (probe.copied sp).Copies user sp)
    (start : uc.uregs .sp = sp) (taken : probe.takeSnapshot sp uc = (true, last)) :
    last.Captures user := by
  obtain ⟨uregs, data, size⟩ := takeSnapshot_eq_true taken
  obtain ⟨left, bound, ret, bytes⟩ := copies
  have room : stackSize = 8192 := rfl
  have sized : last.size = BitVec.ofNat 32 (stackSize - left) := by
    rw [size, ret]
    apply BitVec.eq_of_toNat_eq
    simp only [BitVec.toNat_sub, BitVec.toNat_setWidth, BitVec.toNat_ofNat]
    omega
  have value : last.size.toInt = (stackSize - left : Nat) := by
    rw [sized, BitVec.toInt_eq_toNat_of_lt]
    · rw [BitVec.toNat_ofNat, Nat.mod_eq_of_lt (by omega)]
    · rw [BitVec.toNat_ofNat]
      omega
  have copied : last.data = (probe.copied sp).dst := by
    rw [data, bpfProbeReadStack, if_neg]
    rw [ret, BitVec.toInt_eq_toNat_of_lt]
    · exact Int.not_lt.mpr (Int.natCast_nonneg _)
    · rw [BitVec.toNat_ofNat]
      omega
  refine ⟨by omega, by omega, fun index below => ?_⟩
  rw [copied, uregs, start]
  exact bytes index (by omega)

end Probe

/-- A context that is submitted captures the stack of the user, also from within a system
call. -/
theorem captures_of_submitted {cache next : ContextCache} {ret : Int} (stable : probe.Stable)
    (copies : ∀ source, (probe.copied source).Copies user source)
    (submitted : getUnwindCtx probe cache = ((ret, some uc), next)) : uc.Captures user := by
  unfold getUnwindCtx at submitted
  split at submitted
  · cases submitted
  · split at submitted
    · cases submitted
    · cases submitted
    · rename_i sp zuc readSp _
      split at submitted
      · cases submitted
      · split at submitted
        · cases submitted
        · rename_i filled
          cases submitted
          obtain ⟨entry, start, atStart, taken⟩ := Probe.fill_eq_true stable readSp filled
          exact Probe.takeSnapshot_captures (copies start) atStart taken

namespace UnwindCtx

/-- The comparisons of `access_mem` do not wrap around where they let the snapshot
be read: the end of the snapshot is behind its start. -/
theorem Snapshot.within (snapshot : uc.Snapshot addr) :
    ((addr - uc.uregs .sp).toNat : Int) + 8 < uc.size.toInt := by
  obtain ⟨sized, fits, inside⟩ := snapshot
  rw [snapshots, Bool.and_eq_true, decide_eq_true_eq, decide_eq_true_eq] at inside
  have positive : uc.size.msb = false := by
    rw [BitVec.msb_eq_toInt, decide_eq_false_iff_not]
    omega
  have value : uc.size.toInt = uc.size.toNat := BitVec.toInt_eq_toNat_of_msb positive
  have extended : (uc.size.signExtend 64).toNat = uc.size.toNat := by
    rw [BitVec.signExtend_eq_setWidth_of_msb_false positive,
      BitVec.toNat_setWidth_of_le (by decide)]
  rw [BitVec.le_def, BitVec.lt_def, BitVec.toNat_add, BitVec.toNat_add, extended] at inside
  rw [BitVec.lt_def, BitVec.toNat_add] at fits
  rw [BitVec.toNat_sub]
  have := uc.size.isLt
  have := addr.isLt
  have := (uc.uregs .sp).isLt
  have : (8 : U64).toNat = 8 := rfl
  omega

/-- A word in the snapshot is the user's word. -/
theorem Captures.word (captures : uc.Captures user) (snapshot : uc.Snapshot addr) :
    uc.word (addr - uc.uregs .sp).toNat = .ok (userWord user addr) := by
  have within := snapshot.within
  have le := captures.le
  rw [UnwindCtx.word, if_pos (by omega), userWord]
  congr 2
  apply List.map_congr_left
  intro index member
  have small := List.mem_range.mp member
  rw [dif_pos (by omega), captures.data _ (by dsimp only; omega)]
  congr 1
  rw [BitVec.ofNat_add, BitVec.ofNat_toNat, BitVec.setWidth_eq, ← BitVec.add_assoc]
  congr 1
  rw [BitVec.add_comm, BitVec.sub_add_cancel]

end UnwindCtx

/-- Every submitted context captures the user's stack. A word that `access_mem`
takes from its snapshot lies within the bytes captured and is the user's word at
the address. -/
theorem snapshot_sound {cache next : ContextCache} {ret : Int} (stable : probe.Stable)
    (copies : ∀ source, (probe.copied source).Copies user source)
    (submitted : getUnwindCtx probe cache = ((ret, some uc), next)) :
    uc.Captures user ∧ ∀ addr, uc.Snapshot addr →
      ((addr - uc.uregs .sp).toNat : Int) + 8 ≤ uc.size.toInt ∧
      ∀ os store th, accessMem os store ⟨uc, th⟩ addr false =
        .ok ((0, some (userWord user addr)), store) := by
  have captures := captures_of_submitted stable copies submitted
  refine ⟨captures, fun addr snapshot => ⟨Int.le_of_lt snapshot.within, ?_⟩⟩
  intro os store th
  have word := captures.word snapshot
  obtain ⟨sized, fits, inside⟩ := snapshot
  rw [accessMem, if_neg (UnwindCtx.reads_of_sized sized), regValue_sp, ok_bind, if_neg fits,
    if_pos inside, word, ok_bind]
  rfl

/-- A probe in the kernel, on behalf of a process whose stack has `0x7000` on top
and can be read for 4096 bytes. -/
def Probe.inSyscall (user : U64 → Byte) : Probe where
  ctx := some fun _ => 0
  tracepoint := false
  mm := true
  readSp := fun _ => some 0x7000
  zero := some ⟨0, 0, 0, fun _ => 0, fun _ => 0, 0, fun _ => 0⟩
  ts := 1
  id := 1
  inserts := true
  readRegs := fun _ => some fun _ => 0x7000
  comm := fun _ => 0
  copied := fun source => ⟨4096, fun index => user (source + BitVec.ofNat 64 index.val)⟩

/-- The stack pointer was moved down by 16 bytes, and the word above it is found. -/
theorem snapshot_sound_inSyscall :
    ∃ ret uc next, getUnwindCtx (.inSyscall fun addr => addr.setWidth 8) ∅ =
        ((ret, some uc), next) ∧ uc.uregs .sp = 0x6ff0 ∧ uc.Snapshot 0x7000 ∧
      ∀ os store th, accessMem os store ⟨uc, th⟩ 0x7000 false =
        .ok ((0, some (userWord (fun addr => addr.setWidth 8) 0x7000)), store) := by
  have run : ∃ ret uc next, getUnwindCtx (.inSyscall fun addr => addr.setWidth 8) ∅ =
      ((ret, some uc), next) ∧ uc.uregs .sp = 0x6ff0 ∧ uc.Snapshot 0x7000 := by
    refine ⟨_, _, _, rfl, rfl, ?_, ?_, ?_⟩
    · decide
    · decide
    · rfl
  obtain ⟨ret, uc, next, submitted, start, snapshot⟩ := run
  have stable : (Probe.inSyscall fun addr => addr.setWidth 8).Stable := by
    intro saved sp regs readSp readRegs
    cases readSp
    cases readRegs
    rfl
  have copies : ∀ source, ((Probe.inSyscall fun addr => addr.setWidth 8).copied source).Copies
      (fun addr => addr.setWidth 8) source :=
    fun source => ⟨4096, by decide, rfl, fun _ _ => rfl⟩
  exact ⟨ret, uc, next, submitted, start, snapshot,
    ((snapshot_sound stable copies submitted).2 0x7000 snapshot).2⟩

end DwBpf
