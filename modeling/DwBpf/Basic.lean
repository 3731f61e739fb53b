import Mathlib.Data.BitVec

/-! # Machine words, assertions and failures

The fixed-width integers of `types.h`, and the ways a call of the library can
end other than by returning. `pid_t` has the bits of a `u32`, as the samples
carry it; the code orders it as a signed number and hashes it as an unsigned
one.
-/

namespace DwBpf

abbrev Byte := BitVec 8

abbrev U32 := BitVec 32

abbrev U64 := BitVec 64

abbrev Pid := BitVec 32

inductive SourceFile where
  | machine
  | thread
  | map
  | event
  | dso
  | ptrace
  deriving DecidableEq, Repr

/-- The `assert` statements of the code, by what they check. -/
inductive Assertion where
  /-- `assert(0)` on a non-empty maps object in `machine__update_thread_tgid`. -/
  | brokenMaps
  /-- `assert(0)` at `out_err` in `machine__update_thread_tgid`. -/
  | outErr
  /-- `assert(refcount_read(&th->refcnt) != 0)` in `__machine__remove_thread`. -/
  | threadCounted
  /-- `assert(RB_EMPTY_NODE(&thread->rb_node))` in `thread__delete`. -/
  | threadUnlinked
  /-- `assert(RB_EMPTY_NODE(&map->rb_node))` in `map__exit`. -/
  | mapUnlinked
  /-- `assert(thread != NULL)` in the callers of `machine__findnew_thread`. -/
  | threadFound
  /-- `assert(!thread__insert_map(thread, map))`. -/
  | mapInserted
  /-- `assert(is_regular_file(name))` in `open_dso`. -/
  | regularFile
  /-- `assert(0)` after a failed `open` in `do_open`. -/
  | fileOpened
  /-- `assert(ret <= size)` in `cached_read`. -/
  | readWithinSize
  /-- `assert(idx < ARRAY_SIZE(pt_regs_offset))` in `reg_value`. -/
  | registerIndex
  deriving DecidableEq, Repr

def Assertion.file : Assertion → SourceFile
  | brokenMaps | outErr | threadCounted => .machine
  | threadUnlinked => .thread
  | mapUnlinked => .map
  | threadFound | mapInserted => .event
  | regularFile | fileOpened | readWithinSize => .dso
  | registerIndex => .ptrace

/-- How a call fails to return. -/
inductive Fault where
  /-- An assertion failed and the process aborts. -/
  | assertion (failed : Assertion)
  /-- An object was used after its destruction. -/
  | dangling
  /-- The last reference to a thread was dropped while the thread was linked in
  its bucket's tree, whose pointers `list_del_init` then takes for list links. -/
  | linkedPut
  /-- A value was read outside the object it was to be read from. -/
  | outOfBounds
  /-- A lookup recursed deeper than the bound of the model. -/
  | tooDeep
  deriving DecidableEq, Repr

end DwBpf
