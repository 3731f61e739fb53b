import DwBpf.Rbtree.Erase

/-! # Walking through a tree in memory

`rb_first` and `rb_last`, and `rb_next` and `rb_prev`, are the same functions with the sides
exchanged, and they are about the sequence of the nodes towards a side.
-/

namespace DwBpf.Rb

/-- `while (n->rb_left) n = n->rb_left;`, or the same on the right. -/
def deepest (mem : Memory) (side : Side) : Nat → U64 → Except Failure U64
  | 0, _ => .error .unfinished
  | fuel + 1, n => do
      let below ← mem.load side n
      if below ≠ 0 then
        deepest mem side fuel below
      else
        return n

def outermost (bound : Nat) (mem : Memory) (side : Side) (root : U64) : Except Failure U64 :=
  if mem.root root = 0 then
    return 0
  else
    deepest mem side bound (mem.root root)

/-- `rb_first` -/
def first (bound : Nat) (mem : Memory) (root : U64) : Except Failure U64 :=
  outermost bound mem .left root

/-- `rb_last` -/
def last (bound : Nat) (mem : Memory) (root : U64) : Except Failure U64 :=
  outermost bound mem .right root

/-- `while ((parent = rb_parent(node)) && node == parent->rb_right) node = parent;`, or the
same on the left: the parent at the end. -/
def climb (mem : Memory) (side : Side) : Nat → U64 → Except Failure U64
  | 0, _ => .error .unfinished
  | fuel + 1, node => do
      let parent ← Rb.parent mem node
      if parent = 0 then
        return parent
      else if node = (← mem.load side parent) then
        climb mem side fuel parent
      else
        return parent

def neighbour (bound : Nat) (mem : Memory) (side : Side) (node : U64) : Except Failure U64 := do
  if ← emptyNode mem node then
    return 0
  else
    let below ← mem.load side node
    if below ≠ 0 then
      deepest mem side.flip bound below
    else
      climb mem side bound node

/-- `rb_next` -/
def next (bound : Nat) (mem : Memory) (node : U64) : Except Failure U64 :=
  neighbour bound mem .right node

/-- `rb_prev` -/
def prev (bound : Nat) (mem : Memory) (node : U64) : Except Failure U64 :=
  neighbour bound mem .left node

/-- `for (nd = rb_first(root); nd; nd = rb_next(nd))`: the nodes from one on. -/
def walk (bound : Nat) (mem : Memory) : Nat → U64 → Except Failure (List U64)
  | 0, _ => .error .unfinished
  | fuel + 1, node => do
      if node = 0 then
        return []
      else
        return node :: (← walk bound mem fuel (← next bound mem node))

open DwBpf.Tree

/-- The nodes of a tree in the order towards a side. -/
def towards (tree : Tree U64) : Side → List U64
  | .right => tree.toList
  | .left => tree.toList.reverse

/-- The nodes beyond a place, in the order towards a side. -/
def beyond (path : List (Frame U64)) : Side → List U64
  | .right => after path
  | .left => (before path).reverse

variable {mem : Memory} {root up value hung : U64} {side : Side} {color : Color} {fuel bound : Nat}
  {tree left right : Tree U64} {path : List (Frame U64)}

theorem towards_node (side : Side) :
    towards (node color left value right) side =
      towards (child left right side.flip) side ++
        value :: towards (child left right side) side := by
  cases side with
  | left => simp [towards, child, Side.flip]
  | right => rfl

theorem beyond_cons_same (frame : Frame U64) (path : List (Frame U64)) :
    beyond (frame :: path) frame.side = beyond path frame.side := by
  cases isSide : frame.side with
  | left => simp [beyond, before, isSide]
  | right => simp [beyond, after, isSide]

theorem beyond_cons_flip (frame : Frame U64) (path : List (Frame U64)) :
    beyond (frame :: path) frame.side.flip =
      frame.value :: (towards frame.sibling frame.side.flip ++ beyond path frame.side.flip) := by
  cases isSide : frame.side with
  | left => simp [beyond, after, isSide, towards, Side.flip]
  | right => simp [beyond, before, isSide, towards, Side.flip]

theorem exists_towards (side : Side) (notNil : tree ≠ nil) :
    ∃ head tail, towards tree side = head :: tail := by
  have some : towards tree side ≠ [] := by
    cases tree with
    | nil => exact absurd rfl notNil
    | node => simp [towards_node]
  exact List.exists_cons_of_ne_nil some

/-- The node furthest from a side is the first one on the way towards it. -/
theorem deepest_eq (spans : Spans mem up tree) (notNil : tree ≠ nil) (enough : tree.depth ≤ fuel) :
    deepest mem side.flip fuel (addr tree) = .ok ((towards tree side).headD 0) := by
  induction fuel generalizing tree up with
  | zero =>
      cases tree with
      | nil => exact absurd rfl notNil
      | node => simp [depth] at enough
  | succ fuel ih =>
      cases tree with
      | nil => exact absurd rfl notNil
      | node color left value right =>
          obtain ⟨cell, below, -⟩ := (spans_node side.flip).mp spans
          rw [deepest, addr, Memory.load_of_live _ cell.live, cell.near, ok_bind, towards_node]
          have shallower : (child left right side.flip).depth ≤ fuel := by
            rw [depth] at enough
            cases side with
            | left =>
                rw [Side.flip, child]
                omega
            | right =>
                rw [Side.flip, child]
                omega
          split
          · rename_i notNull
            have someBelow : child left right side.flip ≠ nil :=
              fun isNil => notNull (below.addr_eq_zero.mpr isNil)
            obtain ⟨head, tail, isCons⟩ := exists_towards side someBelow
            rw [ih below someBelow shallower, isCons]
            rfl
          · rename_i isNull
            rw [below.addr_eq_zero.mp (not_not.mp isNull)]
            cases side <;> rfl

theorem outermost_eq (represents : Represents mem root tree) (enough : tree.depth ≤ bound) :
    outermost bound mem side.flip root = .ok ((towards tree side).headD 0) := by
  rw [outermost, represents.2]
  split
  · rename_i isNull
    rw [represents.1.addr_eq_zero.mp isNull]
    cases side <;> rfl
  · rename_i notNull
    exact deepest_eq represents.1 (fun isNil => notNull (by rw [isNil, addr])) enough

/-- Going up ends at the first node beyond the place. -/
theorem climb_eq (climbs : Climbs mem 0 path hung) (live : mem.nodes.live hung = true)
    (word : mem.parentColor hung = pack (above 0 path) color) (nodup : (hung :: held path).Nodup)
    (enough : path.length < fuel) :
    climb mem side fuel hung = .ok ((beyond path side).headD 0) := by
  induction path generalizing hung color fuel with
  | nil =>
      cases fuel with
      | zero => cases enough
      | succ fuel =>
          rw [climb, parent_eq live word climbs.aligned, ok_bind]
          cases side <;> rfl
  | cons frame path ih =>
      cases fuel with
      | zero => cases enough
      | succ fuel =>
          have aligned := climbs.aligned
          obtain ⟨cell, siblingSpans, climbs⟩ := climbs
          rw [climb, parent_eq live word aligned, ok_bind, above, if_neg cell.ne_null,
            Memory.load_of_live _ cell.live, ok_bind]
          rw [held, List.nodup_cons, List.nodup_cons] at nodup
          rcases Side.eq_or_flip frame.side side with rfl | rfl
          · rw [if_pos cell.near.symm, beyond_cons_same]
            refine ih climbs cell.live cell.word ?_ (Nat.lt_of_succ_lt_succ enough)
            rw [List.nodup_cons]
            have apart := (List.nodup_append.mp nodup.2.2).2.1
            exact ⟨fun member => nodup.2.1 (List.mem_append_right _ member), apart⟩
          · rw [cell.far, if_neg, beyond_cons_flip]
            · rfl
            · refine ne_addr (Nodes.ne_null live) fun member => nodup.1 ?_
              exact List.mem_cons_of_mem _ (List.mem_append_left _ member)

/-- A node in a tree is not one that `RB_CLEAR_NODE` has marked. -/
theorem emptyNode_eq (climbs : Climbs mem 0 path hung) (live : mem.nodes.live hung = true)
    (word : mem.parentColor hung = pack (above 0 path) color) (fresh : hung ∉ held path) :
    emptyNode mem hung = .ok false := by
  have different : pack (above 0 path) color ≠ hung := by
    intro same
    have isAbove : above 0 path = hung := by
      rw [← parentOf_pack climbs.aligned color, same, parentOf,
        and_not_three (mem.nodes.aligned hung live)]
    cases path with
    | nil => exact Nodes.ne_null live isAbove.symm
    | cons frame path => exact fresh (isAbove ▸ List.mem_cons_self)
  rw [emptyNode, Memory.word_of_live live, ok_bind, word, pure_eq_ok, decide_eq_false different]

/-- The neighbour of a node on a side is the first node on the way there. -/
theorem neighbour_eq (represents : Represents mem root (plug path (node color left value right)))
    (nodup : (plug path (node color left value right)).toList.Nodup)
    (enough : (plug path (node color left value right)).depth ≤ bound) :
    neighbour bound mem side value =
      .ok ((towards (child left right side) side ++ beyond path side).headD 0) := by
  obtain ⟨spans, hung⟩ := (represents_plug _ _).mp represents
  have hangs : Hangs mem root path value := hung
  have distinct := (perm_plug _ _).nodup_iff.mp nodup
  have fresh : value ∉ held path := by
    simp only [toList_node, List.nodup_append, List.nodup_cons, List.mem_append, List.mem_cons]
      at distinct
    grind
  have heldNodup := (List.nodup_append.mp distinct).2.1
  obtain ⟨cell, below, -⟩ := (spans_node side).mp spans
  have short := length_le_depth path (node color left value right)
  rw [neighbour, emptyNode_eq hangs.1 cell.live cell.word fresh, ok_bind, if_neg (by decide),
    Memory.load_of_live _ cell.live, ok_bind, cell.near]
  split
  · rename_i notNull
    have someBelow : child left right side ≠ nil :=
      fun isNil => notNull (below.addr_eq_zero.mpr isNil)
    obtain ⟨head, tail, isCons⟩ := exists_towards side someBelow
    rw [deepest_eq below someBelow, isCons]
    · rfl
    · rw [depth] at short
      cases side with
      | left =>
          rw [child]
          omega
      | right =>
          rw [child]
          omega
  · rename_i isNull
    have noneBelow := below.addr_eq_zero.mp (not_not.mp isNull)
    have nothing : towards (nil : Tree U64) side = [] := by cases side <;> rfl
    rw [noneBelow, nothing, List.nil_append]
    refine climb_eq hangs.1 cell.live cell.word (List.nodup_cons.mpr ⟨fresh, heldNodup⟩) ?_
    rw [depth] at short
    omega

section Sequence

variable {front back : List U64}

theorem first_eq (represents : Represents mem root tree) (enough : tree.depth ≤ bound) :
    first bound mem root = .ok (tree.toList.headD 0) :=
  @outermost_eq mem root .right bound tree represents enough

theorem last_eq (represents : Represents mem root tree) (enough : tree.depth ≤ bound) :
    last bound mem root = .ok (tree.toList.getLastD 0) := by
  rw [List.getLastD_eq_getLast?, ← List.head?_reverse, ← List.headD_eq_head?_getD]
  exact @outermost_eq mem root .left bound tree represents enough

theorem next_eq (represents : Represents mem root tree) (nodup : tree.toList.Nodup)
    (enough : tree.depth ≤ bound) (split : tree.toList = front ++ value :: back) :
    next bound mem value = .ok (back.headD 0) := by
  obtain ⟨path, color, left, right, whole, -, behind⟩ := exists_plug_of_toList [] split
  rw [plug] at whole
  rw [after, List.append_nil] at behind
  rw [← whole] at represents nodup enough
  rw [next, neighbour_eq represents nodup enough, ← behind]
  rfl

theorem prev_eq (represents : Represents mem root tree) (nodup : tree.toList.Nodup)
    (enough : tree.depth ≤ bound) (split : tree.toList = front ++ value :: back) :
    prev bound mem value = .ok (front.getLastD 0) := by
  obtain ⟨path, color, left, right, whole, ahead, -⟩ := exists_plug_of_toList [] split
  rw [plug] at whole
  rw [before, List.nil_append] at ahead
  rw [← whole] at represents nodup enough
  rw [prev, neighbour_eq represents nodup enough, List.getLastD_eq_getLast?, ← List.head?_reverse,
    ← List.headD_eq_head?_getD, ← ahead, List.reverse_append]
  rfl

/-- Walking on from a node meets the nodes behind it. -/
theorem walk_eq (represents : Represents mem root tree) (nodup : tree.toList.Nodup)
    (enough : tree.depth ≤ bound) (split : tree.toList = front ++ back)
    (long : back.length < fuel) : walk bound mem fuel (back.headD 0) = .ok back := by
  induction fuel generalizing front back with
  | zero => cases long
  | succ fuel ih =>
      cases back with
      | nil => rfl
      | cons value back =>
          have notNull : value ≠ 0 := represents.1.ne_null (by simp [split])
          have rest : walk bound mem fuel (back.headD 0) = .ok back :=
            @ih (front ++ [value]) back (by simp [split]) (Nat.lt_of_succ_lt_succ long)
          rw [walk, List.headD_cons, if_neg notNull, next_eq represents nodup enough split, ok_bind,
            rest]
          rfl

end Sequence

/-- In a balanced tree, `rb_first`, `rb_next`, `rb_last` and `rb_prev` lead from node to node in
the order of the tree and back, and past its ends to `NULL`, in at most twice the logarithm of the
number of nodes in iterations. -/
theorem neighbours (balanced : tree.Balanced) (represents : Represents mem root tree)
    (nodup : tree.toList.Nodup) (enough : 2 * Nat.log 2 (tree.toList.length + 1) ≤ bound) :
    first bound mem root = .ok (tree.toList.headD 0) ∧
      last bound mem root = .ok (tree.toList.getLastD 0) ∧
      ∀ front value back, tree.toList = front ++ value :: back →
        next bound mem value = .ok (back.headD 0) ∧
          prev bound mem value = .ok (front.getLastD 0) := by
  have shallow := balanced.depth_le.trans enough
  refine ⟨first_eq represents shallow, last_eq represents shallow, ?_⟩
  intro front value back split
  exact ⟨next_eq represents nodup shallow split, prev_eq represents nodup shallow split⟩

/-- The nodes around the root are deeper than it, those at the ends have one neighbour. -/
theorem neighbours_four :
    first 5 four 0 = .ok 8 ∧ last 5 four 0 = .ok 32 ∧
      (next 5 four 16 = .ok 24 ∧ prev 5 four 16 = .ok 8) ∧
      (next 5 four 24 = .ok 32 ∧ prev 5 four 24 = .ok 16) ∧
      next 5 four 32 = .ok 0 ∧ prev 5 four 8 = .ok 0 := by
  obtain ⟨starts, ends, around⟩ := @neighbours four 0 5 fourTree balanced_four represents_four
    nodup_four (show 2 * Nat.log 2 5 ≤ 5 by decide +kernel)
  exact ⟨starts, ends, around [8] 16 [24, 32] rfl, around [8, 16] 24 [32] rfl,
    (around [8, 16, 24] 32 [] rfl).1, (around [] 8 [16, 24, 32] rfl).2⟩

end DwBpf.Rb
