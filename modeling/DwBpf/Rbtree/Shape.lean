import DwBpf.Rbtree.Memory

/-! # Trees in memory

A tree of addresses describes the memory at its nodes (`DwBpf.Rb.Spans`), and a path to a
place in a tree describes the memory above the place (`DwBpf.Rb.Hangs`). Both only depend
on the fields of the nodes they name, so that an operation is described by the few nodes
that it changes.
-/

namespace DwBpf

/-- The tree has a red root. -/
def Tree.isRed {α : Type*} : Tree α → Bool
  | .node .red _ _ _ => true
  | _ => false

namespace Rb

open DwBpf.Tree

attribute [grind =] toList_nil toList_node toList_blacken

/-- The address of the root of a tree, `NULL` for the empty one. -/
def addr : Tree U64 → U64
  | .nil => 0
  | .node _ _ value _ => value

/-- The fields of a node, with the children on the side and on the other side. -/
structure Cell (mem : Memory) (rb up : U64) (color : Color) (side : Side) (near far : U64) :
    Prop where
  live : mem.nodes.live rb = true
  word : mem.parentColor rb = pack up color
  near : mem.child side rb = near
  far : mem.child side.flip rb = far

/-- The memory holds the tree below the node `up`. -/
def Spans (mem : Memory) : U64 → Tree U64 → Prop
  | _, .nil => True
  | up, .node color left value right =>
      Cell mem value up color .left (addr left) (addr right) ∧ Spans mem value left ∧
        Spans mem value right

/-- The address above a place, which is `top` for the place of the whole tree. -/
def above (top : U64) : List (Frame U64) → U64
  | [] => top
  | frame :: _ => frame.value

/-- The memory holds what is above a place below `top`, at which `hung` hangs. -/
def Climbs (mem : Memory) (top : U64) : List (Frame U64) → U64 → Prop
  | [], _ => True
  | frame :: path, hung =>
      Cell mem frame.value (above top path) frame.color frame.side hung (addr frame.sibling) ∧
        Spans mem frame.value frame.sibling ∧ Climbs mem top path frame.value

/-- The address of the root of a tree in which `hung` hangs at the end of the path. -/
def topmost : List (Frame U64) → U64 → U64
  | [], hung => hung
  | frame :: path, _ => topmost path frame.value

/-- `hung` hangs at the end of a path from the root. -/
def Hangs (mem : Memory) (root : U64) (path : List (Frame U64)) (hung : U64) : Prop :=
  Climbs mem 0 path hung ∧ mem.root root = topmost path hung

/-- The root holds the tree. -/
def Represents (mem : Memory) (root : U64) (tree : Tree U64) : Prop :=
  Spans mem 0 tree ∧ mem.root root = addr tree

/-- The addresses of the nodes above a place and beside the path to it. -/
def held : List (Frame U64) → List U64
  | [] => []
  | frame :: path => frame.value :: (frame.sibling.toList ++ held path)

variable {mem mem' : Memory} {root up top hung rb : U64} {tree sibling : Tree U64}
  {path : List (Frame U64)} {color color' : Color} {side : Side} {left right : Tree U64}
  {value near far : U64}

theorem Cell.flip (cell : Cell mem rb up color side near far) :
    Cell mem rb up color side.flip far near :=
  ⟨cell.live, cell.word, cell.far, by rw [Side.flip_flip, cell.near]⟩

theorem Cell.ne_null (cell : Cell mem rb up color side near far) : rb ≠ 0 :=
  Nodes.ne_null cell.live

theorem Cell.aligned (cell : Cell mem rb up color side near far) : rb &&& 3 = 0 :=
  mem.nodes.aligned rb cell.live

@[simp] theorem addr_attach (frame : Frame U64) (tree : Tree U64) :
    addr (attach frame tree) = frame.value := by
  unfold attach
  split <;> rfl

@[simp] theorem addr_blacken (tree : Tree U64) : addr tree.blacken = addr tree := by
  cases tree <;> rfl

theorem attach_child (color : Color) (left : Tree U64) (value : U64) (right : Tree U64)
    (side : Side) :
    attach ⟨side, color, value, child left right side.flip⟩ (child left right side) =
      node color left value right := by
  cases side <;> rfl

theorem addr_plug (path : List (Frame U64)) (tree : Tree U64) :
    addr (plug path tree) = topmost path (addr tree) := by
  induction path generalizing tree with
  | nil => rfl
  | cons frame path ih => rw [plug, ih, addr_attach, topmost]

theorem perm_attach (frame : Frame U64) (tree : Tree U64) :
    (attach frame tree).toList.Perm (tree.toList ++ frame.value :: frame.sibling.toList) := by
  rw [toList_attach]
  cases frame.side with
  | left => exact List.Perm.refl _
  | right =>
      refine List.perm_middle.trans ?_
      refine (List.Perm.cons _ List.perm_append_comm).trans ?_
      exact List.perm_middle.symm

theorem mem_attach {frame : Frame U64} :
    rb ∈ (attach frame tree).toList ↔
      rb ∈ tree.toList ∨ rb = frame.value ∨ rb ∈ frame.sibling.toList := by
  rw [(perm_attach frame tree).mem_iff, List.mem_append, List.mem_cons]

theorem perm_child (left right : Tree U64) (side : Side) :
    ((child left right side).toList ++ (child left right side.flip).toList).Perm
      (left.toList ++ right.toList) := by
  cases side with
  | left => exact List.Perm.refl _
  | right => exact List.perm_append_comm

/-- A tree in memory, one node from its root. -/
theorem spans_attach (frame : Frame U64) (tree : Tree U64) :
    Spans mem up (attach frame tree) ↔
      Cell mem frame.value up frame.color frame.side (addr tree) (addr frame.sibling) ∧
        Spans mem frame.value tree ∧ Spans mem frame.value frame.sibling := by
  obtain ⟨side, color, value, sibling⟩ := frame
  cases side with
  | left => rfl
  | right =>
      constructor
      · intro spans
        exact ⟨spans.1.flip, spans.2.2, spans.2.1⟩
      · intro spans
        exact ⟨spans.1.flip, spans.2.2, spans.2.1⟩

/-- The fields of a node, seen from one of its sides. -/
theorem spans_node (side : Side) :
    Spans mem up (node color left value right) ↔
      Cell mem value up color side (addr (child left right side))
          (addr (child left right side.flip)) ∧
        Spans mem value (child left right side) ∧ Spans mem value (child left right side.flip) := by
  rw [← attach_child color left value right side]
  exact spans_attach _ _

theorem spans_plug (path : List (Frame U64)) (tree : Tree U64) :
    Spans mem top (plug path tree) ↔
      Spans mem (above top path) tree ∧ Climbs mem top path (addr tree) := by
  induction path generalizing tree with
  | nil => exact (and_iff_left trivial).symm
  | cons frame path ih =>
      rw [plug, ih, spans_attach, addr_attach]
      constructor
      · intro spans
        exact ⟨spans.1.2.1, spans.1.1, spans.1.2.2, spans.2⟩
      · intro spans
        exact ⟨⟨spans.2.1, spans.1, spans.2.2.1⟩, spans.2.2.2⟩

/-- A tree in memory is a subtree and what is above it. -/
theorem represents_plug (path : List (Frame U64)) (tree : Tree U64) :
    Represents mem root (plug path tree) ↔
      Spans mem (above 0 path) tree ∧ Hangs mem root path (addr tree) := by
  rw [Represents, spans_plug, addr_plug, Hangs, and_assoc]

theorem perm_plug (path : List (Frame U64)) (tree : Tree U64) :
    (plug path tree).toList.Perm (tree.toList ++ held path) := by
  induction path generalizing tree with
  | nil => rw [plug, held, List.append_nil]
  | cons frame path ih =>
      refine (ih _).trans ?_
      rw [held, ← List.cons_append, ← List.append_assoc]
      exact (perm_attach frame tree).append_right _

theorem node_ne_nil : node color left value right ≠ nil := by
  intro isNil
  cases isNil

theorem Spans.ne_null (spans : Spans mem up tree) (member : rb ∈ tree.toList) : rb ≠ 0 := by
  induction tree generalizing up with
  | nil => cases member
  | node color left value right ihLeft ihRight =>
      rcases List.mem_append.mp member with inside | inside
      · exact ihLeft spans.2.1 inside
      · rcases List.mem_cons.mp inside with rfl | inside
        · exact spans.1.ne_null
        · exact ihRight spans.2.2 inside

theorem Spans.addr_eq_zero (spans : Spans mem up tree) : addr tree = 0 ↔ tree = nil := by
  cases tree with
  | nil => simp [addr]
  | node color left value right =>
      simp only [addr, reduceCtorEq, iff_false]
      exact spans.1.ne_null

theorem addr_mem (notNil : tree ≠ nil) : addr tree ∈ tree.toList := by
  cases tree with
  | nil => exact absurd rfl notNil
  | node => simp [addr]

/-- Every node of a tree in memory is there. -/
theorem Spans.live (spans : Spans mem up tree) (member : rb ∈ tree.toList) :
    mem.nodes.live rb = true := by
  induction tree generalizing up with
  | nil => cases member
  | node color left value right ihLeft ihRight =>
      rcases List.mem_append.mp member with inside | inside
      · exact ihLeft spans.2.1 inside
      · rcases List.mem_cons.mp inside with rfl | inside
        · exact spans.1.live
        · exact ihRight spans.2.2 inside

theorem Climbs.aligned (climbs : Climbs mem 0 path hung) : above 0 path &&& 3 = 0 := by
  cases path with
  | nil => rfl
  | cons frame path => exact climbs.1.aligned

/-- Two memories hold the same fields at an address. -/
structure Same (mem mem' : Memory) (rb : U64) : Prop where
  word : mem'.parentColor rb = mem.parentColor rb
  child : ∀ side, mem'.child side rb = mem.child side rb

theorem Same.refl (mem : Memory) (rb : U64) : Same mem mem rb := ⟨rfl, fun _ => rfl⟩

theorem Cell.congr (cell : Cell mem rb up color side near far) (nodes : mem'.nodes = mem.nodes)
    (same : Same mem mem' rb) : Cell mem' rb up color side near far where
  live := by rw [nodes, cell.live]
  word := same.word.trans cell.word
  near := (same.child side).trans cell.near
  far := (same.child side.flip).trans cell.far

theorem Spans.congr (spans : Spans mem up tree) (nodes : mem'.nodes = mem.nodes)
    (same : ∀ rb ∈ tree.toList, Same mem mem' rb) : Spans mem' up tree := by
  induction tree generalizing up with
  | nil => trivial
  | node color left value right ihLeft ihRight =>
      refine ⟨spans.1.congr nodes (same value (by simp)), ?_, ?_⟩
      · exact ihLeft spans.2.1 (fun rb member => same rb (by simp [member]))
      · exact ihRight spans.2.2 (fun rb member => same rb (by simp [member]))

/-- Another parent, and possibly another colour, for the root of a tree. -/
theorem Spans.rehang (spans : Spans mem up (node color left value right))
    (nodes : mem'.nodes = mem.nodes) (word : mem'.parentColor value = pack top color')
    (child : ∀ side, mem'.child side value = mem.child side value)
    (same : ∀ rb ∈ left.toList ++ right.toList, Same mem mem' rb) :
    Spans mem' top (node color' left value right) := by
  refine ⟨⟨?_, word, ?_, ?_⟩, ?_, ?_⟩
  · rw [nodes, spans.1.live]
  · exact (child _).trans spans.1.near
  · exact (child _).trans spans.1.far
  · exact spans.2.1.congr nodes fun rb member => same rb (List.mem_append_left _ member)
  · exact spans.2.2.congr nodes fun rb member => same rb (List.mem_append_right _ member)

theorem Climbs.congr (climbs : Climbs mem top path hung) (nodes : mem'.nodes = mem.nodes)
    (same : ∀ rb ∈ held path, Same mem mem' rb) : Climbs mem' top path hung := by
  induction path generalizing hung with
  | nil => trivial
  | cons frame path ih =>
      refine ⟨climbs.1.congr nodes (same _ (by simp [held])), ?_, ?_⟩
      · exact climbs.2.1.congr nodes fun rb member => same rb (by simp [held, member])
      · exact ih climbs.2.2 fun rb member => same rb (by simp [held, member])

theorem Hangs.congr (hangs : Hangs mem root path hung) (nodes : mem'.nodes = mem.nodes)
    (roots : mem'.root root = mem.root root) (same : ∀ rb ∈ held path, Same mem mem' rb) :
    Hangs mem' root path hung :=
  ⟨hangs.1.congr nodes same, roots.trans hangs.2⟩

/-- An operation on the tree of a root changes the fields of some nodes only. -/
structure Within (mem mem' : Memory) (root : U64) (region : List U64) : Prop where
  nodes : mem'.nodes = mem.nodes
  roots : ∀ other, other ≠ root → mem'.root other = mem.root other
  same : ∀ rb, rb ∉ region → Same mem mem' rb

theorem Within.refl (mem : Memory) (root : U64) (region : List U64) : Within mem mem root region :=
  ⟨rfl, fun _ _ => rfl, fun rb _ => Same.refl mem rb⟩

theorem Same.trans {mem'' : Memory} (first : Same mem mem' rb) (second : Same mem' mem'' rb) :
    Same mem mem'' rb :=
  ⟨second.word.trans first.word, fun side => (second.child side).trans (first.child side)⟩

theorem Within.trans {mem'' : Memory} {region : List U64} (first : Within mem mem' root region)
    (second : Within mem' mem'' root region) : Within mem mem'' root region where
  nodes := second.nodes.trans first.nodes
  roots other different := (second.roots other different).trans (first.roots other different)
  same rb outside := (first.same rb outside).trans (second.same rb outside)

theorem Within.mono {region region' : List U64} (within : Within mem mem' root region)
    (inside : ∀ rb ∈ region, rb ∈ region') : Within mem mem' root region' :=
  ⟨within.nodes, within.roots, fun rb outside => within.same rb fun member =>
    outside (inside rb member)⟩

theorem within_putWord (root : U64) (value word : U64) {region : List U64}
    (member : value ∈ region) : Within mem (mem.putWord value word) root region where
  nodes := rfl
  roots _ _ := rfl
  same rb outside := by
    have different : rb ≠ value := fun same => outside (same ▸ member)
    exact ⟨by simp [different], fun _ => rfl⟩

theorem within_putChild (root : U64) (side : Side) (value word : U64) {region : List U64}
    (member : value ∈ region) : Within mem (mem.putChild side value word) root region where
  nodes := rfl
  roots _ _ := rfl
  same rb outside := by
    have different : rb ≠ value := fun same => outside (same ▸ member)
    exact ⟨rfl, fun _ => by simp [different]⟩

theorem Spans.within {region : List U64} (spans : Spans mem up tree)
    (within : Within mem mem' root region) (apart : ∀ rb ∈ tree.toList, rb ∉ region) :
    Spans mem' up tree :=
  spans.congr within.nodes fun rb member => within.same rb (apart rb member)

theorem Hangs.within {region : List U64} (hangs : Hangs mem root path hung)
    (within : Within mem mem' root region) (roots : mem'.root = mem.root)
    (apart : ∀ rb ∈ held path, rb ∉ region) : Hangs mem' root path hung :=
  hangs.congr within.nodes (by rw [roots]) fun rb member => within.same rb (apart rb member)

/-- Write the word of the root of a tree, if there is one. -/
def Memory.settle (mem : Memory) (tree : Tree U64) (up : U64) : Memory :=
  match tree with
  | .nil => mem
  | .node color _ value _ => mem.putWord value (pack up color)

@[simp] theorem Memory.settle_nodes : (mem.settle tree up).nodes = mem.nodes := by
  cases tree <;> rfl

@[simp] theorem Memory.settle_child : (mem.settle tree up).child = mem.child := by
  cases tree <;> rfl

@[simp] theorem Memory.settle_root : (mem.settle tree up).root = mem.root := by
  cases tree <;> rfl

theorem within_settle (root : U64) (tree : Tree U64) (up : U64) :
    Within mem (mem.settle tree up) root tree.toList := by
  cases tree with
  | nil => exact .refl ..
  | node => exact within_putWord root _ _ (by simp)

@[simp] theorem blacken_blacken (tree : Tree U64) : tree.blacken.blacken = tree.blacken := by
  cases tree <;> rfl

/-- The tree that is written down is the one that was there, up to the colour of its root. -/
theorem Spans.settle {tree' : Tree U64} (spans : Spans mem up tree)
    (shape : tree'.blacken = tree.blacken) (nodup : tree.toList.Nodup) :
    Spans (mem.settle tree' top) top tree' := by
  cases tree with
  | nil =>
      cases tree' with
      | nil => trivial
      | node => cases shape
  | node color left value right =>
      cases tree' with
      | nil => cases shape
      | node color' left' value' right' =>
          cases shape
          rw [toList_node, List.nodup_middle, List.nodup_cons] at nodup
          have within : Within mem (mem.putWord value (pack top color')) 0 [value] :=
            within_putWord 0 value _ (by simp)
          refine spans.rehang within.nodes (by simp [Memory.settle]) (fun _ => rfl) ?_
          intro rb member
          apply within.same
          intro same
          rw [List.mem_singleton.mp same] at member
          exact nodup.1 member

/-- The effect of `__rb_change_child`. -/
def Memory.hang (mem : Memory) (root : U64) (path : List (Frame U64)) (new : U64) : Memory :=
  match path with
  | [] => mem.putRoot root new
  | frame :: _ => mem.putChild frame.side frame.value new

@[simp] theorem Memory.hang_nodes (new : U64) : (mem.hang root path new).nodes = mem.nodes := by
  cases path <;> rfl

@[simp] theorem Memory.hang_parentColor (new : U64) :
    (mem.hang root path new).parentColor = mem.parentColor := by
  cases path <;> rfl

theorem Memory.hang_child (new : U64) (notAbove : rb ≠ above 0 path) :
    (mem.hang root path new).child side rb = mem.child side rb := by
  cases path with
  | nil => rfl
  | cons frame path =>
      simp only [hang, putChild_child, ite_eq_right_iff, and_imp]
      exact fun _ isAbove => absurd isAbove notAbove

theorem Memory.same_hang (new : U64) (notAbove : rb ≠ above 0 path) :
    Same mem (mem.hang root path new) rb :=
  ⟨congrFun (hang_parentColor new) rb, fun _ => hang_child new notAbove⟩

/-- A place in memory hangs what was put there. -/
theorem Hangs.hang (hangs : Hangs mem root path hung) (nodup : (held path).Nodup) (new : U64) :
    Hangs (mem.hang root path new) root path new := by
  cases path with
  | nil =>
      refine ⟨trivial, ?_⟩
      simp [Memory.hang, topmost]
  | cons frame path =>
      obtain ⟨⟨cell, spans, climbs⟩, roots⟩ := hangs
      obtain ⟨fresh, -⟩ := List.nodup_cons.mp nodup
      have same : ∀ rb ∈ frame.sibling.toList ++ held path,
          Same mem (mem.hang root (frame :: path) new) rb := by
        intro rb member
        apply Memory.same_hang
        intro isAbove
        rw [isAbove] at member
        exact fresh member
      refine ⟨⟨⟨cell.live, cell.word, ?_, ?_⟩, ?_, ?_⟩, roots⟩
      · simp [Memory.hang]
      · simp [Memory.hang, cell.far]
      · exact spans.congr rfl fun rb member => same rb (List.mem_append_left _ member)
      · exact climbs.congr rfl fun rb member => same rb (List.mem_append_right _ member)

theorem within_hang (new : U64) : Within mem (mem.hang root path new) root (held path) where
  nodes := Memory.hang_nodes new
  roots other different := by
    cases path with
    | nil => simp [Memory.hang, different]
    | cons => rfl
  same rb outside := by
    cases path with
    | nil => exact ⟨rfl, fun _ => rfl⟩
    | cons frame path =>
        exact Memory.same_hang new fun isAbove => outside (by simp [isAbove, held, above])

/-- A tree hung at a place below the nodes that are there. -/
theorem represents_hang (hangs : Hangs mem root path hung) (nodup : (held path).Nodup)
    (spans : Spans mem (above 0 path) tree) (apart : ∀ rb ∈ tree.toList, rb ∉ held path) :
    Represents (mem.hang root path (addr tree)) root (plug path tree) := by
  rw [represents_plug]
  exact ⟨spans.within (within_hang _) apart, hangs.hang nodup _⟩

/-- A child is told from its sibling by its address. -/
theorem changeChild_eq (hangs : Hangs mem root path hung) (notNull : hung ≠ 0)
    (fresh : hung ∉ held path) (new : U64) :
    changeChild mem hung new (above 0 path) root = .ok (mem.hang root path new) := by
  cases path with
  | nil => simp [changeChild, above, Memory.hang]
  | cons frame path =>
      obtain ⟨⟨cell, spans, -⟩, -⟩ := hangs
      simp only [changeChild, above, cell.ne_null, ne_eq, not_false_eq_true, ↓reduceIte,
        Memory.load_of_live _ cell.live, ok_bind, Memory.store_of_live _ _ cell.live, Memory.hang]
      obtain ⟨side, color, value, sibling⟩ := frame
      cases side with
      | left => rw [if_pos cell.near]
      | right =>
          rw [if_neg]
          intro isSibling
          have isHung : addr sibling = hung := cell.far.symm.trans isSibling
          have notNil : sibling ≠ nil := by
            intro isNil
            rw [isNil] at isHung
            exact notNull isHung.symm
          apply fresh
          rw [← isHung]
          exact List.mem_cons_of_mem _ (List.mem_append_left _ (addr_mem notNil))

theorem parent_eq (live : mem.nodes.live rb = true) (word : mem.parentColor rb = pack up color)
    (aligned : up &&& 3 = 0) : parent mem rb = .ok up := by
  simp only [parent, Memory.word_of_live live, ok_bind, pure_eq_ok, word, parentOf_pack aligned]

@[simp] theorem setParentColor_eq (live : mem.nodes.live rb = true) (p : U64) (color : Color) :
    setParentColor mem rb p color = .ok (mem.putWord rb (pack p color)) :=
  Memory.setWord_of_live _ live

theorem isBlack_eq (live : mem.nodes.live rb = true) (word : mem.parentColor rb = pack up color)
    (aligned : up &&& 3 = 0) : isBlack mem rb = .ok (decide (color = .black)) := by
  simp only [isBlack, Memory.word_of_live live, ok_bind, pure_eq_ok, word, isBlackWord_pack aligned]

theorem isRed_eq (live : mem.nodes.live rb = true) (word : mem.parentColor rb = pack up color)
    (aligned : up &&& 3 = 0) : isRed mem rb = .ok (decide (color = .red)) := by
  simp only [isRed, isBlack_eq live word aligned, ok_bind, pure_eq_ok]
  cases color <;> rfl

section Rotation

variable {old new : U64} {outer inner beside : Tree U64}

/-- A rotation hangs the new root where the old one was. -/
theorem rotateSetParents_eq (hangs : Hangs mem root path old) (fresh : old ∉ held path)
    (newFresh : new ∉ held path) (live : mem.nodes.live old = true)
    (newLive : mem.nodes.live new = true) (word : mem.parentColor old = pack (above 0 path) color) :
    rotateSetParents mem old new root color' =
      .ok (((mem.putWord new (pack (above 0 path) color)).putWord old (pack new color')).hang
        root path new) := by
  have within : Within mem
      ((mem.putWord new (pack (above 0 path) color)).putWord old (pack new color')) root
        [new, old] :=
    (within_putWord root new _ (by simp)).trans (within_putWord root old _ (by simp))
  have hangs' := hangs.within within rfl (by grind)
  simp only [rotateSetParents, parent_eq live word hangs.1.aligned, ok_bind, setParentColor_eq,
    Memory.word_of_live, Memory.setWord_of_live, Memory.putWord_nodes, live, newLive, word]
  exact changeChild_eq hangs' (Nodes.ne_null live) fresh new

/-- The end of a rotation: the fields of the old root `old` and of the new root `new` point
down already, and their parents are set. -/
theorem represents_rotateSetParents (hangs : Hangs mem root path old)
    (live : mem.nodes.live old = true) (newLive : mem.nodes.live new = true)
    (word : mem.parentColor old = pack (above 0 path) color)
    (oldNear : mem.child side old = addr inner) (oldFar : mem.child side.flip old = addr beside)
    (newNear : mem.child side new = addr outer) (newFar : mem.child side.flip new = old)
    (isOuter : Spans mem new outer) (isInner : Spans mem old inner)
      (isBeside : Spans mem old beside)
    (nodup : (outer.toList ++ new :: (inner.toList ++ old :: (beside.toList ++ held path))).Nodup) :
    ∃ mem', rotateSetParents mem old new root color' = .ok mem' ∧
      Represents mem' root (plug path (attach ⟨side, color, new,
        attach ⟨side, color', old, beside⟩ inner⟩ outer)) ∧
      Within mem mem' root (new :: old :: held path) := by
  simp only [List.nodup_append, List.nodup_cons, List.mem_append, List.mem_cons] at nodup
  have different : new ≠ old := by grind
  let turned := (mem.putWord new (pack (above 0 path) color)).putWord old (pack new color')
  have within : Within mem turned root [new, old] :=
    (within_putWord root new _ (by simp)).trans (within_putWord root old _ (by simp))
  have spans : Spans turned (above 0 path) (attach ⟨side, color, new,
      attach ⟨side, color', old, beside⟩ inner⟩ outer) := by
    rw [spans_attach, spans_attach, addr_attach]
    refine ⟨⟨newLive, ?_, newNear, newFar⟩, isOuter.within within (by grind),
      ⟨live, ?_, oldNear, oldFar⟩, isInner.within within (by grind),
      isBeside.within within (by grind)⟩
    · simp [turned, different]
    · simp [turned]
  have hung := represents_hang (hangs.within within rfl (by grind)) (by grind) spans (by
    simp only [mem_attach]
    grind)
  rw [addr_attach] at hung
  refine ⟨turned.hang root path new, ?_, hung, ?_⟩
  · exact rotateSetParents_eq hangs (by grind) (by grind) live newLive word
  · exact (within.mono (by simp)).trans ((within_hang new).mono (by grind))

end Rotation

end Rb

end DwBpf
