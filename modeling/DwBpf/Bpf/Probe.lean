import DwBpf.Unwind.Registers
import Mathlib.Data.List.AList

/-! # The eBPF program that takes samples

`get_unwind_ctx` of `ebpf_get_unwind_ctx.c`, with `bpf_probe_read_stack` of
`bpf.patch`. What the kernel answers during one hit of the probe is an argument.
`struct unwind_ctx` and `struct pt_regs` are declared there as in the library.
-/

namespace DwBpf

/-- `struct key_`. -/
structure Key where
  ts : U64
  id : U64
  deriving DecidableEq

/-- The hash map `cache`. -/
abbrev ContextCache := AList fun _ : Key => UnwindCtx

/-- The number of entries of a `BPF_HASH`. -/
abbrev maxEntries : Nat := 10240

/-- What `user_regs` can point to: the registers of the probe's context, or those
at the top of the task's kernel stack. -/
inductive SavedRegs where
  | ctx
  | task
  deriving DecidableEq, Repr

/-- The outcome of `__copy_from_user_inatomic` into the snapshot: what it returns,
and what is there then. -/
structure StackCopy where
  ret : BitVec 64
  dst : Fin stackSize → Byte

/-- The arguments of `get_unwind_ctx` and what the kernel answers to it. The reads
of the saved registers and the lookup in `zero` may fail, and so may an insertion
into the hash map. -/
structure Probe where
  ctx : Option PtRegs
  tracepoint : Bool
  mm : Bool
  readSp : SavedRegs → Option U64
  zero : Option UnwindCtx
  ts : U64
  id : U64
  inserts : Bool
  readRegs : SavedRegs → Option PtRegs
  comm : Comm
  copied : U64 → StackCopy

/-- `user_mode` of the kernel. -/
def userMode (regs : PtRegs) : Bool := decide (regs .cs &&& 3 ≠ 0)

/-- `bpf_probe_read_stack`, as it returns and what it leaves in the snapshot. -/
def bpfProbeReadStack (copy : StackCopy) : BitVec 64 × (Fin stackSize → Byte) :=
  (copy.ret, if copy.ret.toInt < 0 then fun _ => 0 else copy.dst)

namespace Probe

/-- The choice of `user_regs`. -/
def userRegs (probe : Probe) : Option SavedRegs :=
  if ¬ probe.tracepoint ∧ probe.ctx.any userMode then some .ctx
  else if probe.mm then some .task
  else none

/-- The probe interrupted the kernel, and not in a tracepoint. -/
def inKernel (probe : Probe) : Bool :=
  !probe.tracepoint && probe.ctx.any fun ctx => !userMode ctx

/-- `k`. -/
def key (probe : Probe) : Key := ⟨probe.ts, probe.id⟩

/-- The snapshot of the stack from `sp` on: whether it succeeds, and the entry of
the cache as it leaves it. -/
def takeSnapshot (probe : Probe) (sp : U64) (uc : UnwindCtx) : Bool × UnwindCtx :=
  let (ret, data) := bpfProbeReadStack (probe.copied sp)
  let uc := { uc with data := data }
  let ret : BitVec 32 := ret.setWidth 32
  if ret.toInt < 0 then (false, uc)
  else if ret = 0 then (true, { uc with size := BitVec.ofNat 32 stackSize })
  else (true, { uc with size := BitVec.ofNat 32 stackSize - ret })

/-- The reads into the entry of the cache, for the stack pointer `sp` read before. -/
def fill (probe : Probe) (userRegs : SavedRegs) (sp : U64) (uc : UnwindCtx) : Bool × UnwindCtx :=
  let uc := { uc with
    ts := probe.key.ts
    tgid := (probe.key.id >>> 32).setWidth 32
    tid := probe.key.id.setWidth 32 }
  match probe.readRegs userRegs with
  | none => (false, { uc with uregs := fun _ => 0 })
  | some uregs =>
      let uc := { uc with uregs := uregs, name := probe.comm }
      if probe.inKernel then
        let sp := sp - 16
        probe.takeSnapshot sp { uc with uregs := Function.update uc.uregs .sp sp }
      else probe.takeSnapshot sp uc

end Probe

/-- `cache.lookup_or_init`: the entry, if there is one or it could be inserted. -/
def lookupOrInit (cache : ContextCache) (key : Key) (zuc : UnwindCtx) (inserts : Bool) :
    Option UnwindCtx × ContextCache :=
  match cache.lookup key with
  | some uc => (some uc, cache)
  | none =>
      if inserts ∧ cache.entries.length < maxEntries then (some zuc, cache.insert key zuc)
      else (none, cache)

/-- `get_unwind_ctx`: what it returns, and the context it submits. -/
def getUnwindCtx (probe : Probe) (cache : ContextCache) :
    (Int × Option UnwindCtx) × ContextCache :=
  match probe.userRegs with
  | none => ((-1, none), cache)
  | some userRegs =>
      match probe.readSp userRegs, probe.zero with
      | none, _ => ((-1, none), cache)
      | some _, none => ((-1, none), cache)
      | some sp, some zuc =>
          match lookupOrInit cache probe.key zuc probe.inserts with
          | (none, cache) => ((-1, none), cache)
          | (some uc, cache) =>
              match probe.fill userRegs sp uc with
              | (false, uc) => ((-1, none), cache.replace probe.key uc)
              | (true, uc) => ((0, some uc), (cache.replace probe.key uc).erase probe.key)

end DwBpf
