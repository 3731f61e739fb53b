import DwBpf.Bpf.Snapshot

/-! # The scratch map of the eBPF program

`get_unwind_ctx` builds a context in an entry of the hash map `cache`, which it
deletes when it has submitted the context. A hit that fails after the entry was
made leaves it behind: the map is empty between the hits of a sequence exactly
when every hit that gets as far as making its entry completes it
(`DwBpf.hits_clean_iff`).
-/

namespace DwBpf

variable {probe : Probe} {saved : SavedRegs} {sp : U64} {zuc : UnwindCtx}

/-- The cache after a sequence of hits. -/
def afterHits (probes : List Probe) : ContextCache :=
  probes.foldl (fun cache probe => (getUnwindCtx probe cache).2) ∅

/-- After every hit of the sequence its key is not in the cache, nor any other, and
there is room for the next. -/
def Clean (probes : List Probe) : Prop :=
  ∀ front probe back, probes = front ++ probe :: back →
    (afterHits (front ++ [probe])).lookup probe.key = none ∧ afterHits (front ++ [probe]) = ∅ ∧
      (afterHits (front ++ [probe])).entries.length < maxEntries

namespace Probe

/-- Where the snapshot of the stack starts. -/
def stackStart (probe : Probe) (sp : U64) : U64 := if probe.inKernel then sp - 16 else sp

/-- If the hit makes an entry in an empty map, then both reads into it succeed. -/
def Completes (probe : Probe) : Prop :=
  ∀ saved sp zuc, probe.userRegs = some saved → probe.readSp saved = some sp →
    probe.zero = some zuc → probe.inserts = true →
    (probe.readRegs saved).isSome = true ∧
      0 ≤ ((probe.copied (probe.stackStart sp)).ret.setWidth 32).toInt

variable {uc : UnwindCtx}

theorem takeSnapshot_fst : (probe.takeSnapshot sp uc).1 = true ↔
    0 ≤ ((probe.copied sp).ret.setWidth 32).toInt := by
  unfold takeSnapshot
  dsimp only [bpfProbeReadStack]
  split
  · rename_i negative
    exact iff_of_false nofun (Int.not_le.mpr negative)
  · rename_i nonneg
    refine iff_of_true ?_ (Int.not_lt.mp nonneg)
    split
    · rfl
    · rfl

/-- The context is submitted if the registers could be read and the copy of the stack
reports no error, as an `int`. -/
theorem fill_fst : (probe.fill saved sp uc).1 = true ↔
    (probe.readRegs saved).isSome = true ∧
      0 ≤ ((probe.copied (probe.stackStart sp)).ret.setWidth 32).toInt := by
  unfold fill stackStart
  dsimp only
  cases probe.readRegs saved with
  | none => simp
  | some uregs =>
      dsimp only
      split
      · rw [takeSnapshot_fst]
        simp
      · rw [takeSnapshot_fst]
        simp

end Probe

/-- No keys, no entries. -/
theorem ContextCache.eq_empty_iff {cache : ContextCache} : cache = ∅ ↔ ∀ key, key ∉ cache := by
  constructor
  · rintro rfl key
    exact AList.notMem_empty key
  · intro absent
    apply AList.ext
    rw [AList.empty_entries, List.eq_nil_iff_forall_not_mem]
    intro entry member
    exact absent entry.1 (List.mem_keys_of_mem member)

/-- A hit on the empty map that makes its entry: what it reads decides whether the
entry is deleted. -/
theorem hit_of_inserts (regs : probe.userRegs = some saved) (read : probe.readSp saved = some sp)
    (found : probe.zero = some zuc) (inserts : probe.inserts = true) :
    (getUnwindCtx probe ∅).2 =
      let entry := probe.fill saved sp zuc
      let cache := ((∅ : ContextCache).insert probe.key zuc).replace probe.key entry.2
      if entry.1 then cache.erase probe.key else cache := by
  have made : lookupOrInit ∅ probe.key zuc probe.inserts =
      (some zuc, (∅ : ContextCache).insert probe.key zuc) := by
    rw [lookupOrInit, AList.lookup_empty]
    exact if_pos ⟨inserts, by decide⟩
  rw [getUnwindCtx, regs]
  dsimp only
  rw [read, found]
  dsimp only
  rw [made]
  dsimp only
  cases outcome : probe.fill saved sp zuc with
  | mk done entry =>
      cases done with
      | false => rfl
      | true => rfl

/-- A hit that makes no entry leaves the empty map as it is. -/
theorem hit_of_no_entry (none : ∀ saved sp zuc, probe.userRegs = some saved →
    probe.readSp saved = some sp → probe.zero = some zuc → ¬ probe.inserts = true) :
    (getUnwindCtx probe ∅).2 = ∅ := by
  unfold getUnwindCtx
  split
  · rfl
  · rename_i saved regs
    split
    · rfl
    · rfl
    · rename_i sp zuc read found
      have absent := none saved sp zuc regs read found
      rw [lookupOrInit, AList.lookup_empty]
      dsimp only
      rw [if_neg (fun room => absent room.1)]

/-- A hit on the empty map leaves it empty if it completes, and else leaves its key. -/
theorem hit_empty (probe : Probe) :
    (probe.Completes ∧ (getUnwindCtx probe ∅).2 = ∅) ∨
      (¬ probe.Completes ∧ probe.key ∈ (getUnwindCtx probe ∅).2) := by
  by_cases makes : ∃ saved sp zuc, probe.userRegs = some saved ∧
      probe.readSp saved = some sp ∧ probe.zero = some zuc ∧ probe.inserts = true
  · obtain ⟨saved, sp, zuc, regs, read, found, inserts⟩ := makes
    rw [hit_of_inserts regs read found inserts]
    dsimp only
    by_cases filled : (probe.fill saved sp zuc).1 = true
    · left
      constructor
      · intro saved' sp' zuc' regs' read' found' _
        obtain rfl : saved = saved' := Option.some.inj (regs.symm.trans regs')
        obtain rfl : sp = sp' := Option.some.inj (read.symm.trans read')
        exact Probe.fill_fst.mp filled
      · rw [if_pos filled, ContextCache.eq_empty_iff]
        intro key member
        rw [AList.mem_erase, AList.mem_replace, AList.mem_insert] at member
        rcases member with ⟨other, same | member⟩
        · exact other same
        · exact AList.notMem_empty key member
    · right
      constructor
      · intro completes
        exact filled (Probe.fill_fst.mpr (completes saved sp zuc regs read found inserts))
      · rw [if_neg filled, AList.mem_replace, AList.mem_insert]
        exact .inl rfl
  · left
    constructor
    · intro saved sp zuc regs read found inserts
      exact absurd ⟨saved, sp, zuc, regs, read, found, inserts⟩ makes
    · apply hit_of_no_entry
      intro saved sp zuc regs read found inserts
      exact makes ⟨saved, sp, zuc, regs, read, found, inserts⟩

theorem afterHits_snoc (probes : List Probe) (probe : Probe) :
    afterHits (probes ++ [probe]) = (getUnwindCtx probe (afterHits probes)).2 := by
  rw [afterHits, List.foldl_append]
  rfl

theorem afterHits_of_completes {probes : List Probe}
    (completes : ∀ probe ∈ probes, probe.Completes) : afterHits probes = ∅ := by
  induction probes using List.reverseRecOn with
  | nil => rfl
  | append_singleton probes probe ih =>
      rw [afterHits_snoc, ih fun other member => completes other (List.mem_append_left _ member)]
      rcases hit_empty probe with ⟨-, empty⟩ | ⟨incomplete, -⟩
      · exact empty
      · exact absurd (completes probe (by simp)) incomplete

/-- After every hit of a sequence its key is gone, the map is empty, and the next
hit has room, exactly when every hit that makes an entry reads the registers and
the stack into it. -/
theorem hits_clean_iff (probes : List Probe) :
    Clean probes ↔ ∀ probe ∈ probes, probe.Completes := by
  constructor
  · intro clean probe member
    obtain ⟨front, back, rfl⟩ := List.append_of_mem member
    have before : afterHits front = ∅ := by
      rcases List.eq_nil_or_concat front with rfl | ⟨earlier, last, rfl⟩
      · rfl
      · rw [List.concat_eq_append] at clean ⊢
        exact (clean earlier last (probe :: back) (by simp)).2.1
    have after := (clean front probe back rfl).1
    rw [afterHits_snoc, before] at after
    rcases hit_empty probe with ⟨completes, -⟩ | ⟨-, left⟩
    · exact completes
    · exact absurd left (AList.lookup_eq_none.mp after)
  · rintro completes front probe back rfl
    have empty : afterHits (front ++ [probe]) = ∅ := by
      apply afterHits_of_completes
      intro other member
      apply completes
      rcases List.mem_append.mp member with member | member
      · exact List.mem_append_left _ member
      · exact List.mem_append_right _ (List.mem_cons.mpr (.inl (List.mem_singleton.mp member)))
    rw [empty]
    exact ⟨AList.lookup_empty _, rfl, by decide⟩

/-- A hit whose registers cannot be read. -/
def Probe.unreadable : Probe := { Probe.inSyscall fun _ => 0 with readRegs := fun _ => none }

/-- One such hit leaves its key behind. -/
theorem unreadable_leaves_key : ¬ Clean [Probe.unreadable] ∧
    (getUnwindCtx Probe.unreadable ∅).1 = (-1, none) ∧
    Probe.unreadable.key ∈ afterHits [Probe.unreadable] := by
  have left : Probe.unreadable.key ∈ afterHits [Probe.unreadable] := by decide
  refine ⟨fun clean => ?_, rfl, left⟩
  exact AList.lookup_eq_none.mp (clean [] Probe.unreadable [] rfl).1 left

end DwBpf
