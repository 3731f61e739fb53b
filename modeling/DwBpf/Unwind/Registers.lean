import DwBpf.Basic
import Mathlib.Tactic.IntervalCases

/-! # Samples and the registers in them

`struct pt_regs` and `reg_value` of `ptrace.h`, the numbering of registers by
libunwind, and `struct unwind_ctx`, the sample that the eBPF program submits.
-/

namespace DwBpf

/-- The fields of `struct pt_regs`, in their order. -/
inductive PtReg where
  | r15 | r14 | r13 | r12 | bp | bx | r11 | r10 | r9 | r8 | ax | cx | dx | si | di
  | origAx | ip | cs | flags | sp | ss
  deriving DecidableEq, Repr

/-- `struct pt_regs`. -/
abbrev PtRegs := PtReg → U64

/-- `offsetof(struct pt_regs, r)`. -/
def PtReg.offset (reg : PtReg) : U32 := BitVec.ofNat 32 (8 * reg.ctorIdx)

def PtReg.all : List PtReg :=
  [.r15, .r14, .r13, .r12, .bp, .bx, .r11, .r10, .r9, .r8, .ax, .cx, .dx, .si, .di,
    .origAx, .ip, .cs, .flags, .sp, .ss]

/-- `enum x86_regs`. -/
inductive X86Reg where
  | ax | bx | cx | dx | si | di | bp | sp | ip | flags | cs | ss | ds | es | fs | gs
  | r8 | r9 | r10 | r11 | r12 | r13 | r14 | r15
  deriving DecidableEq, Repr

/-- The value of an enumerator, as an `int`. -/
def X86Reg.id (reg : X86Reg) : BitVec 32 := BitVec.ofNat 32 reg.ctorIdx

/-- `pt_regs_offset`; the segment registers are not stored. -/
def ptRegsOffset : List U32 :=
  [PtReg.ax.offset, PtReg.bx.offset, PtReg.cx.offset, PtReg.dx.offset, PtReg.si.offset,
    PtReg.di.offset, PtReg.bp.offset, PtReg.sp.offset, PtReg.ip.offset, PtReg.flags.offset,
    PtReg.cs.offset, PtReg.ss.offset, -1, -1, -1, -1, PtReg.r8.offset, PtReg.r9.offset,
    PtReg.r10.offset, PtReg.r11.offset, PtReg.r12.offset, PtReg.r13.offset, PtReg.r14.offset,
    PtReg.r15.offset]

/-- `reg_value`. The index is compared with the size of the table as an unsigned
number of 64 bits. -/
def regValue (regs : PtRegs) (idx : BitVec 32) : Except Fault U64 :=
  match ptRegsOffset[(idx.signExtend 64).toNat]? with
  | none => .error (.assertion .registerIndex)
  | some offset =>
      match PtReg.all.find? fun reg => reg.offset = offset with
      | none => .error .outOfBounds
      | some reg => .ok (regs reg)

/-- `-EINVAL`. -/
abbrev negEinval : Int := -22

/-- `LIBUNWIND__ARCH_REG_ID`: the registers of libunwind are numbered as DWARF
numbers them, from `UNW_X86_64_RAX` to `UNW_X86_64_RIP`. -/
def archRegId (regnum : BitVec 32) : BitVec 32 :=
  match regnum.toNat with
  | 0 => X86Reg.ax.id
  | 1 => X86Reg.dx.id
  | 2 => X86Reg.cx.id
  | 3 => X86Reg.bx.id
  | 4 => X86Reg.si.id
  | 5 => X86Reg.di.id
  | 6 => X86Reg.bp.id
  | 7 => X86Reg.sp.id
  | 8 => X86Reg.r8.id
  | 9 => X86Reg.r9.id
  | 10 => X86Reg.r10.id
  | 11 => X86Reg.r11.id
  | 12 => X86Reg.r12.id
  | 13 => X86Reg.r13.id
  | 14 => X86Reg.r14.id
  | 15 => X86Reg.r15.id
  | 16 => X86Reg.ip.id
  | _ => BitVec.ofInt 32 negEinval

/-- `STACK_SIZE`. -/
abbrev stackSize : Nat := 8192

/-- `char name[TASK_COMM_LEN]`. -/
abbrev Comm := Fin 16 → Byte

/-- `struct unwind_ctx`. -/
structure UnwindCtx where
  ts : U64
  tid : Pid
  tgid : Pid
  uregs : PtRegs
  name : Comm
  size : BitVec 32
  data : Fin stackSize → Byte

/-- A stored register is read at the offset of its field. -/
theorem regValue_sp (regs : PtRegs) : regValue regs X86Reg.sp.id = .ok (regs .sp) := rfl

theorem regValue_ip (regs : PtRegs) : regValue regs X86Reg.ip.id = .ok (regs .ip) := rfl

/-- The registers libunwind numbers up to `UNW_X86_64_RIP` are stored. -/
theorem regValue_archRegId_of_le (regs : PtRegs) {regnum : BitVec 32}
    (numbered : regnum.toNat ≤ 16) : ∃ value, regValue regs (archRegId regnum) = .ok value := by
  unfold archRegId
  generalize regnum.toNat = number at numbered
  interval_cases number <;> exact ⟨_, rfl⟩

/-- The error code for any other number is not an index of the table. -/
theorem regValue_archRegId_of_lt (regs : PtRegs) {regnum : BitVec 32}
    (other : 16 < regnum.toNat) :
    regValue regs (archRegId regnum) = .error (.assertion .registerIndex) := by
  unfold archRegId
  split
  all_goals first | omega | rfl

end DwBpf
