import DwBpf.Basic
import DwBpf.Foundation.RedBlack
import DwBpf.Foundation.Run

/-! # Tree nodes in memory

The nodes of `rbtree.h` as the code sees them: addresses, a parent address that shares its
word with the colour, and two child addresses. Reading or writing a field of a node that is
not there fails. What the memory holds is a tree of addresses (`DwBpf.Rb.Represents`): the
fields of every node are the ones its place in the tree gives it.
-/

namespace DwBpf

@[simp] theorem Side.flip_flip (side : Side) : side.flip.flip = side := by
  cases side <;> rfl

@[simp] theorem Side.flip_ne (side : Side) : side.flip ≠ side := by
  cases side <;> decide

@[simp] theorem Side.ne_flip (side : Side) : side ≠ side.flip := by
  cases side <;> decide

theorem Side.eq_or_flip (side other : Side) : other = side ∨ other = side.flip := by
  cases side <;> cases other <;> decide

namespace Rb

/-- How an operation on a tree fails to return. -/
inductive Failure where
  /-- A field was read or written through an address with no node. -/
  | invalid (rb : U64)
  /-- A loop ran longer than the bound of the model. -/
  | unfinished
  deriving DecidableEq, Repr

/-- The addresses with a node: none of them is `NULL`, and `struct rb_node` is aligned. -/
structure Nodes where
  live : U64 → Bool
  null : live 0 = false
  aligned : ∀ rb, live rb = true → rb &&& 3 = 0

theorem Nodes.ne_null {nodes : Nodes} {rb : U64} (live : nodes.live rb = true) : rb ≠ 0 := by
  intro isNull
  rw [isNull, nodes.null] at live
  cases live

/-- The fields of `struct rb_node` by the address of the node, and `rb_node` of
`struct rb_root` by the address of the root. -/
structure Memory where
  nodes : Nodes
  parentColor : U64 → U64
  child : Side → U64 → U64
  root : U64 → U64

/-- Nodes at given addresses. -/
def Nodes.at (rbs : List U64) (proper : ∀ rb ∈ rbs, rb ≠ 0 ∧ rb &&& 3 = 0) : Nodes where
  live rb := rbs.contains rb
  null := by
    rw [Bool.eq_false_iff]
    intro member
    exact (proper 0 (List.contains_iff_mem.mp member)).1 rfl
  aligned rb member := (proper rb (List.contains_iff_mem.mp member)).2

/-- The memory after `RB_ROOT` for every root and `RB_CLEAR_NODE` for every node. -/
def Memory.blank (nodes : Nodes) : Memory where
  nodes := nodes
  parentColor rb := rb
  child _ _ := 0
  root _ := 0

namespace Memory

def putWord (mem : Memory) (rb word : U64) : Memory :=
  { mem with parentColor := fun other => if other = rb then word else mem.parentColor other }

def putChild (mem : Memory) (side : Side) (rb child : U64) : Memory :=
  { mem with
    child := fun side' other => if side' = side ∧ other = rb then child else mem.child side' other }

def putRoot (mem : Memory) (root node : U64) : Memory :=
  { mem with root := fun other => if other = root then node else mem.root other }

/-- `rb->__rb_parent_color` -/
def word (mem : Memory) (rb : U64) : Except Failure U64 :=
  if mem.nodes.live rb then .ok (mem.parentColor rb) else .error (.invalid rb)

def setWord (mem : Memory) (rb word : U64) : Except Failure Memory :=
  if mem.nodes.live rb then .ok (mem.putWord rb word) else .error (.invalid rb)

/-- `rb->rb_left` or `rb->rb_right` -/
def load (mem : Memory) (side : Side) (rb : U64) : Except Failure U64 :=
  if mem.nodes.live rb then .ok (mem.child side rb) else .error (.invalid rb)

def store (mem : Memory) (side : Side) (rb child : U64) : Except Failure Memory :=
  if mem.nodes.live rb then .ok (mem.putChild side rb child) else .error (.invalid rb)

variable (mem : Memory) (rb other word' root : U64) (side side' : Side)

@[simp] theorem putWord_nodes : (mem.putWord rb word').nodes = mem.nodes := rfl

@[simp] theorem putWord_child : (mem.putWord rb word').child = mem.child := rfl

@[simp] theorem putWord_root : (mem.putWord rb word').root = mem.root := rfl

@[simp] theorem putWord_parentColor : (mem.putWord rb word').parentColor other =
    if other = rb then word' else mem.parentColor other := rfl

@[simp] theorem putChild_nodes : (mem.putChild side rb word').nodes = mem.nodes := rfl

@[simp] theorem putChild_parentColor :
    (mem.putChild side rb word').parentColor = mem.parentColor := rfl

@[simp] theorem putChild_root : (mem.putChild side rb word').root = mem.root := rfl

@[simp] theorem putChild_child : (mem.putChild side rb word').child side' other =
    if side' = side ∧ other = rb then word' else mem.child side' other := rfl

@[simp] theorem putRoot_nodes : (mem.putRoot root word').nodes = mem.nodes := rfl

@[simp] theorem putRoot_parentColor : (mem.putRoot root word').parentColor = mem.parentColor := rfl

@[simp] theorem putRoot_child : (mem.putRoot root word').child = mem.child := rfl

@[simp] theorem putRoot_root : (mem.putRoot root word').root other =
    if other = root then word' else mem.root other := rfl

variable {mem rb}

@[simp] theorem word_of_live (live : mem.nodes.live rb = true) :
    mem.word rb = .ok (mem.parentColor rb) := if_pos live

@[simp] theorem setWord_of_live (live : mem.nodes.live rb = true) :
    mem.setWord rb word' = .ok (mem.putWord rb word') := if_pos live

@[simp] theorem load_of_live (live : mem.nodes.live rb = true) :
    mem.load side rb = .ok (mem.child side rb) := if_pos live

@[simp] theorem store_of_live (live : mem.nodes.live rb = true) :
    mem.store side rb word' = .ok (mem.putChild side rb word') := if_pos live

end Memory

/-- `RB_RED` and `RB_BLACK` -/
def bits : Color → U64
  | .red => 0
  | .black => 1

/-- `__rb_parent` -/
def parentOf (pc : U64) : U64 := pc &&& ~~~3

/-- `__rb_is_black` -/
def isBlackWord (pc : U64) : Bool := pc &&& 1 ≠ 0

def parent (mem : Memory) (rb : U64) : Except Failure U64 := do
  return parentOf (← mem.word rb)

def isBlack (mem : Memory) (rb : U64) : Except Failure Bool := do
  return isBlackWord (← mem.word rb)

def isRed (mem : Memory) (rb : U64) : Except Failure Bool := do
  return !(← isBlack mem rb)

def redParent (mem : Memory) (red : U64) : Except Failure U64 := mem.word red

def setBlack (mem : Memory) (rb : U64) : Except Failure Memory := do
  mem.setWord rb ((← mem.word rb) ||| bits .black)

def setParent (mem : Memory) (rb p : U64) : Except Failure Memory := do
  mem.setWord rb (((← mem.word rb) &&& 1) ||| p)

def setParentColor (mem : Memory) (rb p : U64) (color : Color) : Except Failure Memory :=
  mem.setWord rb (p ||| bits color)

def emptyNode (mem : Memory) (rb : U64) : Except Failure Bool := do
  return (← mem.word rb) = rb

def clearNode (mem : Memory) (rb : U64) : Except Failure Memory := mem.setWord rb rb

/-- `__rb_change_child` -/
def changeChild (mem : Memory) (old new parent root : U64) : Except Failure Memory := do
  if parent ≠ 0 then
    if (← mem.load .left parent) = old then
      mem.store .left parent new
    else
      mem.store .right parent new
  else
    return mem.putRoot root new

/-- `__rb_rotate_set_parents` -/
def rotateSetParents (mem : Memory) (old new root : U64) (color : Color) :
    Except Failure Memory := do
  let parent ← parent mem old
  let mem ← mem.setWord new (← mem.word old)
  let mem ← setParentColor mem old new color
  changeChild mem old new parent root

/-- The place a `struct rb_node **` points to. -/
inductive Link where
  | root (root : U64)
  | child (side : Side) (rb : U64)

def Link.get (mem : Memory) : Link → Except Failure U64
  | .root pointer => return mem.root pointer
  | .child side rb => mem.load side rb

def Link.set (mem : Memory) (node : U64) : Link → Except Failure Memory
  | .root pointer => return mem.putRoot pointer node
  | .child side rb => mem.store side rb node

def linkNode (mem : Memory) (node parent : U64) (link : Link) : Except Failure Memory := do
  let mem ← mem.setWord node parent
  let mem ← mem.store .right node 0
  let mem ← mem.store .left node 0
  link.set mem node

/-- A parent's address and a colour in one word. -/
def pack (up : U64) (color : Color) : U64 := up ||| bits color

variable {up : U64}

theorem and_not_three (aligned : up &&& 3 = 0) : up &&& ~~~3 = up := by
  have whole : up &&& (3 ||| ~~~3) = up := BitVec.and_allOnes
  rw [BitVec.and_or_distrib_left, aligned] at whole
  simpa using whole

theorem and_one (aligned : up &&& 3 = 0) : up &&& 1 = 0 := by
  have masked : up &&& 3 &&& 1 = up &&& 1 := BitVec.and_assoc up 3 1
  rw [aligned] at masked
  simpa using masked.symm

theorem parentOf_pack (aligned : up &&& 3 = 0) (color : Color) : parentOf (pack up color) = up := by
  rw [parentOf, pack, BitVec.and_or_distrib_right, and_not_three aligned]
  cases color <;> exact BitVec.or_zero

theorem pack_and_one (aligned : up &&& 3 = 0) (color : Color) :
    pack up color &&& 1 = bits color := by
  rw [pack, BitVec.and_or_distrib_right, and_one aligned]
  cases color <;> rfl

theorem isBlackWord_pack (aligned : up &&& 3 = 0) (color : Color) :
    isBlackWord (pack up color) = decide (color = .black) := by
  rw [isBlackWord, pack_and_one aligned]
  cases color <;> rfl

end Rb

end DwBpf
