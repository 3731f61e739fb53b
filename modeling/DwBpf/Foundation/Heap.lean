import Mathlib.Data.List.Nodup
import Mathlib.Data.List.Perm.Subperm
import Mathlib.Logic.Function.Basic

/-! # Typed heaps with fresh allocation

Objects of one type live at numbered addresses. An address is never given out
twice, so a reference is either live or dangling for good, and the number of
live objects with a property changes in the obvious way with each operation
(`DwBpf.Heap.count`).
-/

namespace DwBpf

universe u

/-- A reference to an object of type `α`. -/
@[ext] structure Ref (α : Type u) where
  addr : Nat
  deriving Repr

instance {α : Type u} : DecidableEq (Ref α) := fun first second =>
  decidable_of_iff (first.addr = second.addr) Ref.ext_iff.symm

/-- The objects of one type; nothing lives at or above `next`. -/
structure Heap (α : Type u) where
  next : Nat
  cell : Nat → Option α
  fresh : ∀ addr, next ≤ addr → cell addr = none

namespace Heap

variable {α : Type u} {heap : Heap α} {ref other : Ref α} {value : α}

def empty : Heap α := ⟨0, fun _ => none, fun _ _ => rfl⟩

def get? (heap : Heap α) (ref : Ref α) : Option α := heap.cell ref.addr

/-- The reference the next allocation returns. -/
def nextRef (heap : Heap α) : Ref α := ⟨heap.next⟩

def alloc (heap : Heap α) (value : α) : Heap α where
  next := heap.next + 1
  cell := Function.update heap.cell heap.next (some value)
  fresh := by
    intro addr above
    rw [Function.update_of_ne (by omega)]
    exact heap.fresh addr (by omega)

def modify (heap : Heap α) (ref : Ref α) (change : α → α) : Heap α where
  next := heap.next
  cell := Function.update heap.cell ref.addr ((heap.cell ref.addr).map change)
  fresh := by
    intro addr above
    by_cases same : addr = ref.addr
    · subst same
      rw [Function.update_self, heap.fresh ref.addr above]
      rfl
    · rw [Function.update_of_ne same]
      exact heap.fresh addr above

def free (heap : Heap α) (ref : Ref α) : Heap α where
  next := heap.next
  cell := Function.update heap.cell ref.addr none
  fresh := by
    intro addr above
    by_cases same : addr = ref.addr
    · rw [same, Function.update_self]
    · rw [Function.update_of_ne same]
      exact heap.fresh addr above

@[simp] theorem get?_empty (ref : Ref α) : (empty : Heap α).get? ref = none := rfl

@[simp] theorem get?_nextRef (heap : Heap α) : heap.get? heap.nextRef = none :=
  heap.fresh heap.next (Nat.le_refl _)

theorem ne_nextRef (live : heap.get? ref = some value) : ref ≠ heap.nextRef := by
  rintro rfl
  simp at live

@[simp] theorem get?_alloc_nextRef (heap : Heap α) (value : α) :
    (heap.alloc value).get? heap.nextRef = some value := by
  simp [get?, alloc, nextRef]

theorem get?_alloc_of_ne (value : α) (different : ref ≠ heap.nextRef) :
    (heap.alloc value).get? ref = heap.get? ref := by
  have addr : ref.addr ≠ heap.next := fun same => different (Ref.ext same)
  simp [get?, alloc, Function.update_of_ne addr]

theorem get?_alloc_of_some (added : α) (live : heap.get? ref = some value) :
    (heap.alloc added).get? ref = some value := by
  rw [get?_alloc_of_ne added (ne_nextRef live), live]

@[simp] theorem get?_modify_self (heap : Heap α) (ref : Ref α) (change : α → α) :
    (heap.modify ref change).get? ref = (heap.get? ref).map change := by
  simp [get?, modify]

theorem get?_modify_of_ne (change : α → α) (different : other ≠ ref) :
    (heap.modify ref change).get? other = heap.get? other := by
  have addr : other.addr ≠ ref.addr := fun same => different (Ref.ext same)
  simp [get?, modify, Function.update_of_ne addr]

theorem get?_modify (heap : Heap α) (ref other : Ref α) (change : α → α) :
    (heap.modify ref change).get? other =
      if other = ref then (heap.get? ref).map change else heap.get? other := by
  split
  · rename_i same
    rw [same, get?_modify_self]
  · rename_i different
    exact get?_modify_of_ne change different

theorem get?_free (heap : Heap α) (ref other : Ref α) :
    (heap.free ref).get? other = if other = ref then none else heap.get? other := by
  split
  · rename_i same
    simp [same, get?, free]
  · rename_i different
    have addr : other.addr ≠ ref.addr :=
      fun same => different (Ref.ext same)
    simp [get?, free, Function.update_of_ne addr]

theorem get?_free_eq_some :
    (heap.free ref).get? other = some value ↔ other ≠ ref ∧ heap.get? other = some value := by
  rw [get?_free]
  split
  · simp [*]
  · simp [*]

theorem get?_modify_eq_some {change : α → α} :
    (heap.modify ref change).get? other = some value ↔
      ∃ stored, heap.get? other = some stored ∧
        value = if other = ref then change stored else stored := by
  rw [get?_modify]
  by_cases same : other = ref
  · subst same
    simp only [↓reduceIte, Option.map_eq_some_iff]
    exact exists_congr fun stored => and_congr_right fun _ => eq_comm
  · simp [same]

theorem get?_alloc_eq_some {added : α} :
    (heap.alloc added).get? ref = some value ↔
      (ref = heap.nextRef ∧ value = added) ∨ heap.get? ref = some value := by
  by_cases fresh : ref = heap.nextRef
  · subst fresh
    simp [eq_comm]
  · simp [fresh, get?_alloc_of_ne added fresh]

@[simp] theorem nextRef_modify (heap : Heap α) (ref : Ref α) (change : α → α) :
    (heap.modify ref change).nextRef = heap.nextRef := rfl

@[simp] theorem nextRef_free (heap : Heap α) (ref : Ref α) :
    (heap.free ref).nextRef = heap.nextRef := rfl

theorem modify_modify (heap : Heap α) (ref : Ref α) (first second : α → α) :
    (heap.modify ref first).modify ref second = heap.modify ref (second ∘ first) := by
  simp [modify, Function.comp_def, Option.map_map]

/-- Heaps that gave out the same addresses and hold the same objects are equal. -/
theorem ext_get? {first second : Heap α} (next : first.next = second.next)
    (same : ∀ ref, first.get? ref = second.get? ref) : first = second := by
  obtain ⟨next₁, cell₁, fresh₁⟩ := first
  obtain ⟨next₂, cell₂, fresh₂⟩ := second
  obtain rfl : next₁ = next₂ := next
  obtain rfl : cell₁ = cell₂ := funext fun addr => same ⟨addr⟩
  rfl

theorem modify_congr {first second : α → α}
    (same : ∀ value, heap.get? ref = some value → first value = second value) :
    heap.modify ref first = heap.modify ref second := by
  refine ext_get? rfl fun other => ?_
  rw [get?_modify, get?_modify]
  cases live : heap.get? ref with
  | none => rfl
  | some value => simp [same value live]

theorem modify_eq_self {change : α → α}
    (same : ∀ value, heap.get? ref = some value → change value = value) :
    heap.modify ref change = heap := by
  refine ext_get? rfl fun other => ?_
  rw [get?_modify]
  split
  · rename_i isRef
    rw [isRef]
    cases live : heap.get? ref with
    | none => rfl
    | some value => rw [Option.map_some, same value live]
  · rfl

theorem modify_comm (different : ref ≠ other) (first second : α → α) :
    (heap.modify ref first).modify other second = (heap.modify other second).modify ref first := by
  refine ext_get? rfl fun any => ?_
  by_cases isRef : any = ref
  · subst isRef
    rw [get?_modify_of_ne _ different, get?_modify_self, get?_modify_self,
      get?_modify_of_ne _ different]
  · by_cases isOther : any = other
    · subst isOther
      rw [get?_modify_self, get?_modify_of_ne _ isRef, get?_modify_of_ne _ isRef, get?_modify_self]
    · rw [get?_modify_of_ne _ isOther, get?_modify_of_ne _ isRef, get?_modify_of_ne _ isRef,
        get?_modify_of_ne _ isOther]

/-- Changes to one object are done together, whatever happens to another. -/
theorem modify_interleave (different : ref ≠ other) (first second between : α → α) :
    ((heap.modify other first).modify ref between).modify other second =
      (heap.modify other (second ∘ first)).modify ref between := by
  rw [modify_comm different, modify_modify]

theorem modify_alloc_nextRef (heap : Heap α) (value : α) (change : α → α) :
    (heap.alloc value).modify heap.nextRef change = heap.alloc (change value) := by
  refine ext_get? rfl fun other => ?_
  by_cases same : other = heap.nextRef
  · rw [same, get?_modify_self, get?_alloc_nextRef, get?_alloc_nextRef, Option.map_some]
  · rw [get?_modify_of_ne _ same, get?_alloc_of_ne _ same, get?_alloc_of_ne _ same]

/-- A change of a live value commutes with an allocation. -/
theorem alloc_modify (live : heap.get? ref = some value) (added : α) (change : α → α) :
    (heap.modify ref change).alloc added = (heap.alloc added).modify ref change := by
  refine ext_get? rfl fun other => ?_
  by_cases fresh : other = heap.nextRef
  · subst fresh
    rw [get?_modify_of_ne _ (ne_nextRef live).symm, get?_alloc_nextRef]
    exact get?_alloc_nextRef (heap.modify ref change) added
  · have untouched : ((heap.modify ref change).alloc added).get? other =
        (heap.modify ref change).get? other := get?_alloc_of_ne added fresh
    rw [untouched]
    by_cases same : other = ref
    · subst same
      rw [get?_modify_self, get?_modify_self, get?_alloc_of_ne _ fresh]
    · rw [get?_modify_of_ne _ same, get?_modify_of_ne _ same, get?_alloc_of_ne _ fresh]

theorem free_modify (heap : Heap α) (ref : Ref α) (change : α → α) :
    (heap.modify ref change).free ref = heap.free ref := by
  simp [modify, free]

/-- The number of live objects with a property. -/
def count (heap : Heap α) (property : α → Prop) [DecidablePred property] : Nat :=
  (List.range heap.next).countP fun addr =>
    (heap.cell addr).any fun value => decide (property value)

variable {property : α → Prop} [DecidablePred property]

/-- How many addresses of a range hold such a value changes with the one that is written. -/
private theorem countP_update (property : α → Prop) [DecidablePred property] (cell : Nat → Option α)
    (addr limit : Nat) (value : Option α) (below : addr < limit) :
    ((List.range limit).countP fun index =>
        (Function.update cell addr value index).any fun stored => decide (property stored)) +
      (if (cell addr).any fun stored => decide (property stored) then 1 else 0) =
    ((List.range limit).countP fun index =>
        (cell index).any fun stored => decide (property stored)) +
      (if value.any fun stored => decide (property stored) then 1 else 0) := by
  induction limit with
  | zero => omega
  | succ limit ih =>
      rw [List.range_succ, List.countP_append, List.countP_append]
      simp only [List.countP_cons, List.countP_nil, Nat.zero_add]
      by_cases same : addr = limit
      · subst same
        rw [Function.update_self]
        have untouched : ((List.range addr).countP fun index =>
            (Function.update cell addr value index).any fun stored => decide (property stored)) =
            (List.range addr).countP fun index =>
              (cell index).any fun stored => decide (property stored) := by
          apply List.countP_congr
          intro index member
          rw [Function.update_of_ne (Nat.ne_of_lt (List.mem_range.mp member))]
        rw [untouched]
        omega
      · have smaller := ih (by omega)
        rw [Function.update_of_ne (Ne.symm same)]
        omega

theorem count_le_next (heap : Heap α) : heap.count property ≤ heap.next := by
  have bound := List.countP_le_length (l := List.range heap.next)
    (p := fun addr => (heap.cell addr).any fun value => decide (property value))
  rwa [List.length_range] at bound

@[simp] theorem count_empty : (empty : Heap α).count property = 0 := rfl

theorem count_alloc (heap : Heap α) (value : α) :
    (heap.alloc value).count property = heap.count property + if property value then 1 else 0 := by
  simp only [count, alloc, List.range_succ, List.countP_append, List.countP_cons, List.countP_nil,
    Function.update_self, Option.any_some, decide_eq_true_eq, Nat.zero_add]
  congr 1
  apply List.countP_congr
  intro index member
  rw [Function.update_of_ne (Nat.ne_of_lt (List.mem_range.mp member))]

theorem addr_lt_next (live : heap.get? ref = some value) : ref.addr < heap.next := by
  by_contra above
  rw [get?, heap.fresh ref.addr (Nat.le_of_not_lt above)] at live
  cases live

/-- Changing one object changes the count by what the change does to it. -/
theorem count_modify (live : heap.get? ref = some value) (change : α → α) :
    (heap.modify ref change).count property + (if property value then 1 else 0) =
      heap.count property + if property (change value) then 1 else 0 := by
  have stored : heap.cell ref.addr = some value := live
  have updated := countP_update property heap.cell ref.addr heap.next
    ((heap.cell ref.addr).map change) (addr_lt_next live)
  simp only [stored, Option.map_some, Option.any_some, decide_eq_true_eq] at updated
  simpa only [count, modify, stored, Option.map_some] using updated

/-- A change that keeps the property keeps the count. -/
theorem count_modify_of_iff {change : α → α}
    (keeps : ∀ value, heap.get? ref = some value → (property (change value) ↔ property value)) :
    (heap.modify ref change).count property = heap.count property := by
  cases found : heap.get? ref with
  | none =>
      rw [modify_eq_self]
      intro value live
      cases found.symm.trans live
  | some value =>
      apply Nat.add_right_cancel
      rw [count_modify found change, if_congr (keeps value found) rfl rfl]

/-- The count depends on where the property holds only. -/
theorem count_congr {other : Heap α} (next : other.next = heap.next)
    (same : ∀ ref, (other.get? ref).any (fun value => decide (property value)) =
      (heap.get? ref).any fun value => decide (property value)) :
    other.count property = heap.count property := by
  unfold count
  rw [next]
  apply List.countP_congr
  intro addr _
  rw [show ((other.cell addr).any fun value => decide (property value)) =
    (heap.cell addr).any fun value => decide (property value) from same ⟨addr⟩]

/-- Properties that the same objects have. -/
theorem count_eq_count {property' : α → Prop} [DecidablePred property']
    (same : ∀ ref value, heap.get? ref = some value → (property value ↔ property' value)) :
    heap.count property = heap.count property' := by
  apply List.countP_congr
  intro addr _
  cases found : heap.cell addr with
  | none => rfl
  | some value => simpa only [Option.any_some, decide_eq_true_eq] using same ⟨addr⟩ value found

theorem count_free (live : heap.get? ref = some value) :
    (heap.free ref).count property + (if property value then 1 else 0) = heap.count property := by
  have stored : heap.cell ref.addr = some value := live
  have updated := countP_update property heap.cell ref.addr heap.next none
    (addr_lt_next live)
  simp only [stored, Option.any_some, Option.any_none, decide_eq_true_eq, Bool.false_eq_true,
    ↓reduceIte, Nat.add_zero] at updated
  exact updated

theorem count_pos (live : heap.get? ref = some value) (holds : property value) :
    0 < heap.count property := by
  apply List.countP_pos_iff.mpr
  refine ⟨ref.addr, List.mem_range.mpr (addr_lt_next live), ?_⟩
  rw [show heap.cell ref.addr = some value from live]
  simpa using holds

theorem count_eq_zero :
    heap.count property = 0 ↔ ∀ ref value, heap.get? ref = some value → ¬ property value := by
  unfold count
  rw [List.countP_eq_zero]
  constructor
  · intro none ref value live holds
    apply none ref.addr (List.mem_range.mpr (addr_lt_next live))
    rw [show heap.cell ref.addr = some value from live]
    simpa using holds
  · intro all addr _ any
    cases stored : heap.cell addr with
    | none => simp [stored] at any
    | some value => exact all ⟨addr⟩ value stored (by simpa [stored] using any)

/-- Objects told apart by a key below `bound` are at most `bound` many. -/
theorem count_le_of_key {bound : Nat} (key : α → Nat)
    (below : ∀ ref value, heap.get? ref = some value → key value < bound)
    (separates : ∀ ref other value value', heap.get? ref = some value →
      heap.get? other = some value' → key value = key value' → ref = other) :
    heap.count property ≤ bound := by
  have stored : ∀ addr, ((heap.cell addr).any fun value => decide (property value)) = true →
      ∃ value, heap.get? ⟨addr⟩ = some value := by
    intro addr any
    cases cell : heap.cell addr with
    | none => simp [cell] at any
    | some value => exact ⟨value, cell⟩
  rw [count, List.countP_eq_length_filter]
  generalize live : ((List.range heap.next).filter fun addr =>
    (heap.cell addr).any fun value => decide (property value)) = addrs
  have chosen : ∀ addr ∈ addrs, ∃ value, heap.get? ⟨addr⟩ = some value := by
    intro addr member
    rw [← live] at member
    exact stored addr (List.mem_filter.mp member).2
  have distinct : (addrs.map fun addr => ((heap.cell addr).map key).getD 0).Nodup := by
    apply List.Nodup.map_on
    · intro addr member addr' member' same
      obtain ⟨value, isLive⟩ := chosen addr member
      obtain ⟨value', isLive'⟩ := chosen addr' member'
      rw [show heap.cell addr = some value from isLive,
        show heap.cell addr' = some value' from isLive'] at same
      exact congrArg Ref.addr (separates ⟨addr⟩ ⟨addr'⟩ value value' isLive isLive' same)
    · exact live ▸ List.nodup_range.filter _
  have within : (addrs.map fun addr => ((heap.cell addr).map key).getD 0) ⊆ List.range bound := by
    intro number member
    obtain ⟨addr, inAddrs, rfl⟩ := List.mem_map.mp member
    obtain ⟨value, isLive⟩ := chosen addr inAddrs
    rw [show heap.cell addr = some value from isLive]
    exact List.mem_range.mpr (below ⟨addr⟩ value isLive)
  simpa using (List.subperm_of_subset distinct within).length_le

end Heap

end DwBpf
