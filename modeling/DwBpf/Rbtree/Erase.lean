import DwBpf.Rbtree.EraseColor

/-! # Erasing from a tree in memory -/

namespace DwBpf.Rb

/-- The loop of `__rb_erase_augmented` down to the successor: its parent and itself. -/
def successorLoop (mem : Memory) : Nat → U64 → U64 → Except Failure (U64 × U64)
  | 0, _, _ => .error .unfinished
  | fuel + 1, parent, successor => do
      let tmp ← mem.load .left successor
      if tmp ≠ 0 then
        successorLoop mem fuel successor tmp
      else
        return (parent, successor)

/-- Take the successor out of the right subtree, which starts at `child`: the parent that it
had, unless it is `child` itself, the successor and its child. -/
def detachSuccessor (bound : Nat) (mem : Memory) (child : U64) :
    Except Failure (U64 × U64 × U64 × Memory) := do
  let tmp ← mem.load .left child
  if tmp = 0 then
    return (child, child, ← mem.load .right child, mem)
  else
    let (parent, successor) ← successorLoop mem bound child tmp
    let child2 ← mem.load .right successor
    let mem ← mem.store .left parent child2
    let mem ← mem.store .right successor child
    let mem ← setParent mem child successor
    return (parent, successor, child2, mem)

/-- Put the successor in the place of the node. -/
def replaceBySuccessor (mem : Memory) (node root parent successor child2 : U64) :
    Except Failure (U64 × Memory) := do
  let tmp ← mem.load .left node
  let mem ← mem.store .left successor tmp
  let mem ← setParent mem tmp successor
  let pc ← mem.word node
  let mem ← changeChild mem node successor (parentOf pc) root
  if child2 ≠ 0 then
    let mem ← mem.setWord successor pc
    let mem ← setParentColor mem child2 parent .black
    return (0, mem)
  else
    let pc2 ← mem.word successor
    let mem ← mem.setWord successor pc
    return (if isBlackWord pc2 then parent else 0, mem)

/-- `__rb_erase_augmented`, without the callbacks, which do nothing here: the node at which
the tree is to be rebalanced, or `NULL`. -/
def eraseAugmented (bound : Nat) (mem : Memory) (node root : U64) :
    Except Failure (U64 × Memory) := do
  let child ← mem.load .right node
  let tmp ← mem.load .left node
  if tmp = 0 then
    let pc ← mem.word node
    let mem ← changeChild mem node child (parentOf pc) root
    if child ≠ 0 then
      return (0, ← mem.setWord child pc)
    else
      return (if isBlackWord pc then parentOf pc else 0, mem)
  else if child = 0 then
    let pc ← mem.word node
    let mem ← mem.setWord tmp pc
    return (0, ← changeChild mem node tmp (parentOf pc) root)
  else
    let (parent, successor, child2, mem) ← detachSuccessor bound mem child
    replaceBySuccessor mem node root parent successor child2

/-- `rb_erase`, with a bound for the number of iterations. -/
def erase (bound : Nat) (mem : Memory) (node root : U64) : Except Failure Memory := do
  let (rebalance, mem) ← eraseAugmented bound mem node root
  if rebalance ≠ 0 then
    eraseLoop root bound 0 rebalance mem
  else
    return mem

/-- `rb_erase_init` -/
def eraseInit (bound : Nat) (mem : Memory) (node root : U64) : Except Failure Memory := do
  clearNode (← erase bound mem node root) node

open DwBpf.Tree

variable {mem mem' : Memory} {root value successor up top top' hung : U64} {color next : Color}
  {left right below : Tree U64} {path inner init : List (Frame U64)}

theorem held_append (init path : List (Frame U64)) :
    held (init ++ path) = held init ++ held path := by
  induction init with
  | nil => rfl
  | cons frame init ih => simp [held, ih]

theorem above_append (inner : List (Frame U64)) (frame : Frame U64) (path : List (Frame U64)) :
    above top (inner ++ frame :: path) = above frame.value inner := by
  cases inner <;> rfl

theorem topmost_append (init : List (Frame U64)) (frame : Frame U64) (hung : U64) :
    topmost (init ++ [frame]) hung = frame.value := by
  induction init generalizing hung with
  | nil => rfl
  | cons first init ih => exact ih first.value

/-- Another parent for the node at the upper end of a path. -/
theorem Climbs.retop {frame : Frame U64} (climbs : Climbs mem top (init ++ [frame]) hung)
    (nodes : mem'.nodes = mem.nodes)
    (same : ∀ rb ∈ held init ++ frame.sibling.toList, Same mem mem' rb)
    (word : mem'.parentColor frame.value = pack top' frame.color)
    (child : ∀ side, mem'.child side frame.value = mem.child side frame.value) :
    Climbs mem' top' (init ++ [frame]) hung := by
  induction init generalizing hung with
  | nil =>
      obtain ⟨cell, spans, -⟩ := climbs
      refine ⟨⟨?_, word, (child _).trans cell.near, (child _).trans cell.far⟩, ?_, trivial⟩
      · rw [nodes, cell.live]
      · exact spans.congr nodes fun rb member => same rb (List.mem_append_right _ member)
  | cons first init ih =>
      obtain ⟨cell, spans, climbs⟩ := climbs
      have tops : above top' (init ++ [frame]) = above top (init ++ [frame]) := by
        cases init <;> rfl
      refine ⟨?_, ?_, ?_⟩
      · rw [show above top' (init.append [frame]) = _ from tops]
        exact cell.congr nodes (same _ (by simp [held]))
      · exact spans.congr nodes fun rb member => same rb (by simp [held, member])
      · refine ih climbs fun rb member => same rb ?_
        rw [List.mem_append] at member ⊢
        rcases member with inside | inside
        · exact Or.inl (by simp [held, inside])
        · exact Or.inr inside

theorem setParent_settle {tree : Tree U64} (spans : Spans mem up tree) (notNil : tree ≠ nil)
    (aligned : up &&& 3 = 0) (parent : U64) :
    setParent mem (addr tree) parent = .ok (mem.settle tree parent) := by
  cases tree with
  | nil => exact absurd rfl notNil
  | node color left value right => exact setParent_eq spans.1.live spans.1.word aligned parent

theorem Memory.putWord_hang (rb word new : U64) :
    (mem.hang root path new).putWord rb word = (mem.putWord rb word).hang root path new := by
  cases path <;> rfl

/-- The successor takes the place, the colour and the left child of the node. -/
theorem replaceBySuccessor_eq (hangs : Hangs mem root path value)
    (live : mem.nodes.live value = true) (word : mem.parentColor value = pack (above 0 path) color)
    (isLeft : mem.child .left value = addr left) (notNil : left ≠ nil)
    (leftSpans : Spans mem value left) (successorLive : mem.nodes.live successor = true)
    (successorWord : mem.parentColor successor = pack up next) (aligned : up &&& 3 = 0)
    (isRight : mem.child .right successor = topmost inner (addr below))
    (climbs : Climbs mem successor inner (addr below)) (belowSpans : Spans mem successor below)
    (nodup : (left.toList ++ successor :: (below.toList ++ (held inner ++
      value :: held path))).Nodup) :
    ∃ mem', replaceBySuccessor mem value root (above successor inner) successor (addr below) =
        .ok (if below = nil ∧ next = .black then above successor inner else 0, mem') ∧
      Represents mem' root (plug path (attach ⟨.right, color, successor, left⟩
        (plug inner below.blacken))) ∧
      Within mem mem' root (left.toList ++ successor :: (below.toList ++ held path)) := by
  have distinct := nodup
  simp only [List.nodup_append, List.nodup_cons, List.mem_append, List.mem_cons] at distinct
  let linked := mem.putChild .left successor (addr left)
  have toLinked : Within mem linked root [successor] := within_putChild root _ _ _ (by simp)
  have leftLinked : Spans linked value left := leftSpans.within toLinked (by grind)
  let adopted := linked.settle left successor
  have toAdopted : Within linked adopted root left.toList := within_settle root left successor
  have leftAdopted : Spans adopted successor left := leftLinked.settle rfl (by grind)
  let worded := adopted.putWord successor (pack (above 0 path) color)
  have toWorded : Within adopted worded root [successor] := within_putWord root _ _ (by simp)
  let settled := worded.settle below.blacken (above successor inner)
  have toSettled : Within worded settled root below.blacken.toList :=
    within_settle root below.blacken _
  have most : Within mem worded root (left.toList ++ [successor]) :=
    ((toLinked.mono (by simp)).trans (toAdopted.mono (by grind))).trans (toWorded.mono (by simp))
  have whole : Within mem settled root (left.toList ++ successor :: below.toList) :=
    (most.mono (by grind)).trans (toSettled.mono (by grind))
  have spans : Spans settled (above 0 path) (attach ⟨.right, color, successor, left⟩
      (plug inner below.blacken)) := by
    rw [spans_attach, spans_plug, addr_plug, addr_blacken]
    refine ⟨⟨?_, ?_, ?_, ?_⟩, ⟨?_, ?_⟩, ?_⟩
    · rw [whole.nodes, successorLive]
    · refine (toSettled.same successor (by grind)).word.trans ?_
      simp [worded]
    · simp [settled, worded, adopted, linked, isRight]
    · simp [settled, worded, adopted, linked, Side.flip]
    · exact (belowSpans.within most (by grind)).settle (blacken_blacken below) (by grind)
    · exact climbs.congr whole.nodes fun rb member => whole.same rb (by grind)
    · exact (leftAdopted.within toWorded (by grind)).within toSettled (by grind)
  have hangs' : Hangs settled root path value :=
    hangs.within whole (by simp [settled, worded, adopted, linked]) (by grind)
  have represents := represents_hang hangs' (by grind) spans (by
    intro rb member
    rw [mem_attach, (perm_plug inner below.blacken).mem_iff, List.mem_append] at member
    grind)
  rw [addr_attach] at represents
  refine ⟨settled.hang root path successor, ?_, represents,
    (whole.mono (by grind)).trans ((within_hang successor).mono (by grind))⟩
  have toAdopted' : Within mem adopted root (left.toList ++ [successor]) :=
    (toLinked.mono (by simp)).trans (toAdopted.mono (by grind))
  have adopts : setParent (mem.putChild .left successor (addr left)) (addr left) successor =
      .ok adopted := setParent_settle leftLinked notNil (mem.nodes.aligned value live) successor
  have adoptedWord : adopted.parentColor value = pack (above 0 path) color :=
    (toAdopted'.same value (by grind)).word.trans word
  have adoptedLive : adopted.nodes.live value = true := by rw [toAdopted'.nodes, live]
  have successorLive' : adopted.nodes.live successor = true := by
    rw [toAdopted'.nodes, successorLive]
  have changes : changeChild adopted value successor (above 0 path) root =
      .ok (adopted.hang root path successor) :=
    changeChild_eq (hangs.within toAdopted' (by simp [adopted, linked]) (by grind))
      (Nodes.ne_null live) (by grind) successor
  simp only [replaceBySuccessor, Memory.load_of_live _ live, isLeft, ok_bind,
    Memory.store_of_live _ _ successorLive, adopts, Memory.word_of_live adoptedLive, adoptedWord,
    parentOf_pack hangs.1.aligned, changes, Memory.setWord_of_live, Memory.hang_nodes,
    successorLive']
  cases below with
  | nil =>
      have pc2 : adopted.parentColor successor = pack up next :=
        (toAdopted.same successor (by grind)).word.trans successorWord
      simp only [addr, ne_eq, not_true_eq_false, ↓reduceIte, Memory.word_of_live, Memory.hang_nodes,
        successorLive', Memory.hang_parentColor, pc2, ok_bind, isBlackWord_pack aligned,
        decide_eq_true_eq, true_and, Memory.putWord_hang]
      rfl
  | node belowColor belowLeft belowValue belowRight =>
      have belowLive : adopted.nodes.live belowValue = true := by
        rw [toAdopted'.nodes]
        exact belowSpans.1.live
      simp only [addr, ne_eq, belowSpans.1.ne_null, not_false_eq_true, ↓reduceIte, ok_bind,
        setParentColor_eq, Memory.putWord_nodes, Memory.hang_nodes, belowLive, reduceCtorEq,
        false_and, Memory.putWord_hang]
      rfl

section Successor

variable {fuel : Nat}

/-- The way to the first node of a tree continues the way to the tree, and goes left. -/
theorem leftmost_append
    (leads : leftmost color value right left path = (next, successor, below, inner)) :
    ∃ init, inner = init ++ path ∧ ∀ frame ∈ init, frame.side = .left := by
  fun_induction leftmost color value right left path with
  | case1 =>
      cases leads
      exact ⟨[], rfl, fun _ member => absurd member List.not_mem_nil⟩
  | case2 color value right path color' left value' right' ih =>
      obtain ⟨init, isInner, goesLeft⟩ := ih leads
      refine ⟨init ++ [⟨.left, color, value, right⟩], by simp [isInner], ?_⟩
      intro frame member
      rcases List.mem_append.mp member with inside | inside
      · exact goesLeft frame inside
      · rw [List.mem_singleton.mp inside]

/-- The loop goes down the left spine of the right subtree to the successor, and keeps its
parent. -/
theorem successorLoop_eq (spans : Spans mem up (node color left value right))
    (leads : leftmost color value right left path = (next, successor, below, inner))
    (enough : left.depth < fuel) :
    successorLoop mem fuel (above top path) value = .ok (above top inner, successor) := by
  fun_induction leftmost color value right left path generalizing fuel up with
  | case1 color value right path =>
      cases leads
      cases fuel with
      | zero => cases enough
      | succ fuel =>
          rw [successorLoop, Memory.load_of_live _ spans.1.live, spans.1.near]
          rfl
  | case2 color value right path color' left value' right' ih =>
      cases fuel with
      | zero => cases enough
      | succ fuel =>
          rw [successorLoop, Memory.load_of_live _ spans.1.live, spans.1.near, ok_bind, addr,
            if_pos spans.2.1.1.ne_null]
          refine ih spans.2.1 leads ?_
          rw [depth] at enough
          omega

/-- The memory after the successor is taken out of the right subtree of a node: its child
hangs in its place, and the rest of the subtree hangs below the successor. -/
theorem detachSuccessor_eq {child : U64} (root : U64) (live : mem.nodes.live up = true)
    (spans : Spans mem up (node color left child right))
    (leads : leftmost color child right left [] = (next, successor, below, inner))
    (nodup : (node color left child right).toList.Nodup) (enough : left.depth < fuel) :
    ∃ mem' up', detachSuccessor fuel mem child =
        .ok (above successor inner, successor, addr below, mem') ∧
      mem.nodes.live successor = true ∧ mem'.parentColor successor = pack up' next ∧
      up' &&& 3 = 0 ∧ mem'.child .right successor = topmost inner (addr below) ∧
      Climbs mem' successor inner (addr below) ∧ Spans mem' successor below ∧
      mem'.root = mem.root ∧ Within mem mem' root (node color left child right).toList := by
  have aligned := mem.nodes.aligned up live
  have loads : mem.load .left child = .ok (addr left) := by
    rw [Memory.load_of_live _ spans.1.live, spans.1.near]
  cases left with
  | nil =>
      cases leads
      refine ⟨mem, up, ?_, spans.1.live, spans.1.word, aligned, spans.1.far, trivial, spans.2.2,
        rfl, .refl ..⟩
      rw [detachSuccessor, loads, ok_bind, addr, if_pos rfl, Memory.load_of_live _ spans.1.live,
        show mem.child .right _ = _ from spans.1.far]
      rfl
  | node leftColor leftLeft leftValue leftRight =>
      have isWhole : plug inner (node next nil successor below) =
          node color (node leftColor leftLeft leftValue leftRight) child right :=
            plug_leftmost leads
      have belowNotNull : leftValue ≠ 0 := spans.2.1.1.ne_null
      have childLive := spans.1.live
      have childWord := spans.1.word
      have loops :=
        @successorLoop_eq mem leftValue successor child successor leftColor next leftLeft
        leftRight below [⟨.left, color, child, right⟩] inner fuel spans.2.1 leads
        (by rw [depth] at enough; omega)
      obtain ⟨init, isInner, goesLeft⟩ := @leftmost_append leftValue successor leftColor next
        leftLeft leftRight below [⟨.left, color, child, right⟩] inner leads
      rw [← isWhole] at nodup
      have perm := perm_plug inner (node next nil successor below)
      have distinct := perm.nodup_iff.mp nodup
      rw [← isWhole, spans_plug] at spans
      obtain ⟨⟨scell, -, belowSpans⟩, climbs⟩ := spans
      -- the lowest node on the way has the successor on its left
      obtain ⟨frame, upper, isPath, onLeft⟩ : ∃ frame upper, inner = frame :: upper ∧
          frame.side = .left := by
        cases init with
        | nil => exact ⟨_, _, isInner, rfl⟩
        | cons frame init => exact ⟨frame, _, isInner, goesLeft frame (by simp)⟩
      obtain ⟨side, frameColor, parent, sibling⟩ := frame
      cases onLeft
      have split : held inner = held init ++ child :: right.toList := by
        rw [isInner, held_append]
        simp [held]
      have tops : topmost inner (addr below) = child := by rw [isInner, topmost_append]
      have apart : child ∉ held init ++ right.toList := by
        have once := (List.nodup_append.mp distinct).2.1
        rw [split, List.nodup_middle, List.nodup_cons] at once
        exact once.1
      have outside : successor ≠ child ∧ child ∉ below.toList := by
        simp only [split, toList_node, toList_nil, List.nodup_append, List.nodup_cons,
          List.mem_append, List.mem_cons] at distinct
        grind
      subst isPath
      obtain ⟨pcell, siblingSpans, upperClimbs⟩ := climbs
      simp only [held, toList_node, toList_nil, List.nil_append, List.cons_append,
        List.nodup_append, List.nodup_cons, List.mem_append, List.mem_cons] at distinct
      let lower := mem.putChild .left parent (addr below)
      have toLower : Within mem lower root [parent] := within_putChild root _ _ _ (by simp)
      have lowerClimbs : Climbs lower up (⟨.left, frameColor, parent, sibling⟩ :: upper)
          (addr below) := by
        refine ⟨⟨pcell.live, pcell.word, ?_, ?_⟩, siblingSpans.within toLower (by grind), ?_⟩
        · simp [lower]
        · simpa [lower, Side.flip] using pcell.far
        · exact upperClimbs.congr rfl fun rb member => toLower.same rb (by grind)
      let crossed := lower.putChild .right successor child
      have toCrossed : Within lower crossed root [successor] := within_putChild root _ _ _ (by simp)
      have crossedClimbs : Climbs crossed up (⟨.left, frameColor, parent, sibling⟩ :: upper)
          (addr below) :=
        lowerClimbs.congr rfl fun rb member => toCrossed.same rb (by
          simp only [held, List.mem_cons, List.mem_append] at member
          grind)
      let final := crossed.putWord child (pack successor color)
      have toFinal : Within crossed final root [child] := within_putWord root _ _ (by simp)
      have finalClimbs : Climbs final successor (⟨.left, frameColor, parent, sibling⟩ :: upper)
          (addr below) := by
        rw [isInner] at crossedClimbs ⊢
        refine crossedClimbs.retop rfl ?_ (by simp [final]) (fun _ => rfl)
        intro rb member
        apply toFinal.same
        intro same
        rw [List.mem_singleton.mp same] at member
        exact apart member
      have whole : Within mem final root (parent :: successor :: [child]) :=
        ((toLower.mono (by simp)).trans (toCrossed.mono (by simp))).trans (toFinal.mono (by simp))
      have parentLive : mem.nodes.live parent = true := pcell.live
      have isBelow : mem.child .right successor = addr below := scell.far
      have crossedWord : crossed.parentColor child = pack up color := childWord
      have sets :
        setParent ((mem.putChild .left parent (addr below)).putChild .right successor child)
          child successor = .ok final :=
        setParent_eq (show crossed.nodes.live child = true from childLive) crossedWord aligned _
      refine ⟨final, parent, ?_, scell.live, ?_, pcell.aligned, ?_, finalClimbs, ?_, rfl,
        whole.mono ?_⟩
      · have loads : mem.load .left child = .ok leftValue := loads
        simp only [detachSuccessor, loads, ok_bind, belowNotNull, ↓reduceIte,
          show successorLoop mem fuel child leftValue = _ from loops, above,
          Memory.load_of_live _ scell.live, isBelow, Memory.store_of_live _ _ parentLive,
          Memory.store_of_live, Memory.putChild_nodes, scell.live, sets, pure_eq_ok]
      · have same := toFinal.same successor (by simpa using outside.1)
        exact same.word.trans scell.word
      · rw [tops]
        simp [final, crossed]
      · exact belowSpans.within whole (by grind)
      · intro rb member
        rw [← isWhole, perm.mem_iff]
        simp only [List.mem_cons, List.not_mem_nil, or_false] at member
        rcases member with rfl | rfl | rfl
        · simp [held]
        · simp
        · rw [split]
          simp

end Successor

/-- What `eraseAt` leaves at which place before it rebalances, and whether it has to. -/
def unlinked (color : Color) (left right : Tree U64) (path : List (Frame U64)) :
    Tree U64 × List (Frame U64) × Bool :=
  match left, right with
  | .nil, .nil => (.nil, path, color = .black)
  | .nil, .node _ left value right => (.node color left value right, path, false)
  | .node _ left value right, .nil => (.node color left value right, path, false)
  | left, .node rightColor rightLeft rightValue rightRight =>
      let (next, value, below, inner) := leftmost rightColor rightValue rightRight rightLeft []
      (below.blacken, inner ++ ⟨.right, color, value, left⟩ :: path, below = .nil ∧ next = .black)

/-- Erasing from a tree is unlinking, and then rebalancing if a black node has gone. -/
theorem eraseAt_eq_unlinked (color : Color) (left right : Tree U64) (path : List (Frame U64)) :
    eraseAt color left right path =
      if (unlinked color left right path).2.2 then
        eraseColor (unlinked color left right path).1 (unlinked color left right path).2.1
      else
        plug (unlinked color left right path).2.1 (unlinked color left right path).1 := by
  rcases left with _ | ⟨leftColor, leftLeft, leftValue, leftRight⟩
  · rcases right with _ | ⟨rightColor, rightLeft, rightValue, rightRight⟩
    · cases color <;> rfl
    · rfl
  · rcases right with _ | ⟨rightColor, rightLeft, rightValue, rightRight⟩
    · rfl
    · rcases leads : leftmost rightColor rightValue rightRight rightLeft [] with
        ⟨next, value, below, inner⟩
      simp only [eraseAt, unlinked, leads]
      rcases below with _ | ⟨belowColor, belowLeft, belowValue, belowRight⟩
      · cases next <;> rfl
      · rfl

/-- A node with one child is replaced by the child, which takes over its word. -/
theorem represents_onlyChild (color : Color) {keptColor : Color} {keptLeft keptRight : Tree U64}
    {kept : U64}
    (hangs : Hangs mem root path value)
    (spans : Spans mem value (node keptColor keptLeft kept keptRight))
    (nodup : ((node keptColor keptLeft kept keptRight).toList ++ held path).Nodup) :
    Represents ((mem.putWord kept (pack (above 0 path) color)).hang root path kept) root
        (plug path (node color keptLeft kept keptRight)) ∧
      Hangs (mem.putWord kept (pack (above 0 path) color)) root path value ∧
      Within mem ((mem.putWord kept (pack (above 0 path) color)).hang root path kept) root
        ((node keptColor keptLeft kept keptRight).toList ++ held path) := by
  have within : Within mem (mem.putWord kept (pack (above 0 path) color)) root [kept] :=
    within_putWord root _ _ (by simp)
  have settled : Spans (mem.putWord kept (pack (above 0 path) color)) (above 0 path)
      (node color keptLeft kept keptRight) :=
    @Spans.settle _ _ _ _ (node color keptLeft kept keptRight) spans rfl
      (List.nodup_append.mp nodup).1
  simp only [toList_node, List.nodup_append, List.nodup_cons, List.mem_append,
    List.mem_cons] at nodup
  have hangs' := hangs.within within rfl (by grind)
  refine ⟨?_, hangs', ?_⟩
  · refine represents_hang hangs' (by grind) settled ?_
    simp only [toList_node, List.mem_append, List.mem_cons]
    grind
  · exact (within.mono (by simp)).trans ((within_hang kept).mono (by grind))

/-- `__rb_erase_augmented` unlinks the node in memory: its child or its successor takes
its place, and no node outside the tree changes. It returns the parent at which a black
node is missing, or null. -/
theorem eraseAugmented_eq {bound : Nat}
    (represents : Represents mem root (plug path (node color left value right)))
    (nodup : ((node color left value right).toList ++ held path).Nodup)
    (enough : right.depth < bound) :
    ∃ mem', eraseAugmented bound mem value root =
        .ok (if (unlinked color left right path).2.2 then
          above 0 (unlinked color left right path).2.1 else 0, mem') ∧
      Represents mem' root (plug (unlinked color left right path).2.1
        (unlinked color left right path).1) ∧
      Within mem mem' root ((node color left value right).toList ++ held path) := by
  obtain ⟨⟨cell, leftSpans, rightSpans⟩, hung⟩ := (represents_plug _ _).mp represents
  have hangs : Hangs mem root path value := hung
  have live := cell.live
  have isLeft : mem.child .left value = addr left := cell.near
  have isRight : mem.child .right value = addr right := cell.far
  have aligned := hangs.1.aligned
  have distinct := nodup
  simp only [toList_node, List.nodup_append, List.nodup_cons, List.mem_append, List.mem_cons]
    at distinct
  have fresh : value ∉ held path := by grind
  simp only [eraseAugmented, Memory.load_of_live _ live, isLeft, isRight, ok_bind,
    Memory.word_of_live live, cell.word, parentOf_pack aligned]
  rcases left with _ | ⟨leftColor, leftLeft, leftValue, leftRight⟩
  · have changes := changeChild_eq hangs (Nodes.ne_null live) fresh (addr right)
    simp only [addr, ↓reduceIte] at changes ⊢
    rcases right with _ | ⟨rightColor, rightLeft, rightValue, rightRight⟩
    · refine ⟨mem.hang root path 0, ?_, ?_, (within_hang 0).mono (by grind)⟩
      · simp only [changes, ok_bind, ne_eq, not_true_eq_false, ↓reduceIte, pure_eq_ok,
          isBlackWord_pack aligned]
        rfl
      · have isNil : Spans mem (above 0 path) nil := trivial
        exact represents_hang hangs (by grind) isNil fun _ member =>
          absurd member List.not_mem_nil
    · obtain ⟨represents', -, within⟩ := represents_onlyChild color hangs rightSpans
        (List.nodup_cons.mp nodup).2
      refine ⟨_, ?_, represents', within.mono (by grind)⟩
      simp only [changes, ok_bind, ne_eq, rightSpans.1.ne_null, not_false_eq_true, ↓reduceIte,
        Memory.setWord_of_live, Memory.hang_nodes, rightSpans.1.live, Memory.putWord_hang]
      rfl
  · rcases right with _ | ⟨rightColor, rightLeft, rightValue, rightRight⟩
    · obtain ⟨represents', hangs', within⟩ := represents_onlyChild color hangs leftSpans
        (nodup.sublist (by simp))
      have changes := changeChild_eq hangs' (Nodes.ne_null live) fresh leftValue
      refine ⟨_, ?_, represents', within.mono (by grind)⟩
      simp only [addr, leftSpans.1.ne_null, ↓reduceIte, Memory.setWord_of_live, leftSpans.1.live,
        ok_bind, changes]
      rfl
    · rcases leads : leftmost rightColor rightValue rightRight rightLeft [] with
        ⟨next, successor, below, inner⟩
      have isUnlinked : unlinked color (node leftColor leftLeft leftValue leftRight)
          (node rightColor rightLeft rightValue rightRight) path = (below.blacken,
            inner ++ ⟨.right, color, successor, node leftColor leftLeft leftValue leftRight⟩ ::
              path,
            decide (below = nil ∧ next = .black)) := by
        simp only [unlinked, leads]
      have isWhole : plug inner (node next nil successor below) =
          node rightColor rightLeft rightValue rightRight := plug_leftmost leads
      have perm := perm_plug inner (node next nil successor below)
      rw [isWhole] at perm
      obtain ⟨mem₁, up, detaches, successorLive, successorWord, upAligned, isRight₁, climbs₁,
        belowSpans₁, roots₁, within₁⟩ := detachSuccessor_eq root live rightSpans leads (by grind)
          (show rightLeft.depth < bound by rw [depth] at enough; omega)
      have same := within₁.same value (by grind)
      obtain ⟨mem', replaces, represents', within⟩ := replaceBySuccessor_eq
        (hangs.within within₁ roots₁ (by grind)) (by rw [within₁.nodes, live])
        (same.word.trans cell.word) ((same.child .left).trans isLeft) node_ne_nil
        (leftSpans.within within₁ (by grind)) (by rw [within₁.nodes, successorLive]) successorWord
        upAligned isRight₁ climbs₁ belowSpans₁ (by
          refine (List.Perm.nodup_iff (List.perm_iff_count.mpr fun rb => ?_)).mp nodup
          have counted := perm.count_eq rb
          simp only [toList_node, toList_nil, List.nil_append, List.cons_append, List.count_append,
            List.count_cons] at counted ⊢
          omega)
      refine ⟨mem', ?_, ?_, (within₁.mono (by grind)).trans (within.mono ?_)⟩
      · simp only [addr, leftSpans.1.ne_null, rightSpans.1.ne_null, ↓reduceIte, detaches, ok_bind,
          isUnlinked, above_append, decide_eq_true_eq]
        exact replaces
      · rw [isUnlinked, plug_append]
        exact represents'
      · have inside := fun rb => (perm.mem_iff (a := rb)).mpr
        grind

/-- What is left of a balanced tree lacks at most one black node, at an empty place. -/
theorem unlinked_lacks (balanced : (plug path (node color left value right)).Balanced)
    (lacking : (unlinked color left right path).2.2 = true) :
    (unlinked color left right path).1 = nil ∧
      Fits (unlinked color left right path).2.1 .black 1 := by
  rcases left with _ | ⟨leftColor, leftLeft, leftValue, leftRight⟩
  · rcases right with _ | ⟨rightColor, rightLeft, rightValue, rightRight⟩
    · obtain ⟨_, _, isNode, fits⟩ := fits_of_plug balanced
      have isBlack : color = .black := of_decide_eq_true lacking
      rw [isBlack] at isNode
      cases isNode with
      | black below beside =>
          cases below
          exact ⟨rfl, fits⟩
    · cases lacking
  · rcases right with _ | ⟨rightColor, rightLeft, rightValue, rightRight⟩
    · cases lacking
    · rcases leads : leftmost rightColor rightValue rightRight rightLeft [] with
        ⟨next, successor, below, inner⟩
      obtain ⟨_, _, isNext, place⟩ := fits_successor balanced leads
      simp only [unlinked, leads, decide_eq_true_eq] at lacking ⊢
      obtain ⟨isNil, isBlack⟩ := lacking
      rw [isNil, isBlack] at isNext
      cases isNext with
      | black below beside =>
          cases below
          rw [isNil]
          exact ⟨rfl, place⟩

theorem length_le_depth (path : List (Frame U64)) (tree : Tree U64) :
    path.length + tree.depth ≤ (plug path tree).depth := by
  induction path generalizing tree with
  | nil => exact Nat.le_of_eq (Nat.zero_add _)
  | cons frame path ih =>
      refine Nat.le_trans ?_ (ih (attach frame tree))
      have deeper : tree.depth < (attach frame tree).depth := by
        unfold attach
        split
        · rw [depth]
          omega
        · rw [depth]
          omega
      rw [List.length_cons]
      omega

/-- The nodes that are left are the ones that were there, without the erased one. -/
theorem perm_eraseAt (color : Color) (left : Tree U64) (value : U64) (right : Tree U64)
    (path : List (Frame U64)) :
    (plug path (node color left value right)).toList.Perm
      (value :: (eraseAt color left right path).toList) := by
  rw [toList_plug, toList_eraseAt, toList_node]
  simp only [List.append_assoc]
  rw [← List.append_assoc, List.cons_append, ← List.append_assoc (before path) left.toList]
  exact List.perm_middle

theorem toList_unlinked (color : Color) (left right : Tree U64) (path : List (Frame U64)) :
    (plug (unlinked color left right path).2.1 (unlinked color left right path).1).toList =
      (eraseAt color left right path).toList := by
  rw [eraseAt_eq_unlinked]
  split
  · rw [toList_eraseColor]
  · rfl

/-- A place is no deeper than the tree. -/
theorem length_unlinked (color : Color) (left : Tree U64) (value : U64) (right : Tree U64)
    (path : List (Frame U64)) :
    (unlinked color left right path).2.1.length ≤
      (plug path (node color left value right)).depth := by
  have short := length_le_depth path (node color left value right)
  rcases left with _ | ⟨leftColor, leftLeft, leftValue, leftRight⟩
  · rcases right with _ | ⟨rightColor, rightLeft, rightValue, rightRight⟩
    · exact (Nat.le_add_right ..).trans short
    · exact (Nat.le_add_right ..).trans short
  · rcases right with _ | ⟨rightColor, rightLeft, rightValue, rightRight⟩
    · exact (Nat.le_add_right ..).trans short
    · rcases leads : leftmost rightColor rightValue rightRight rightLeft [] with
        ⟨next, successor, below, inner⟩
      have isWhole : plug inner (node next nil successor below) =
          node rightColor rightLeft rightValue rightRight := plug_leftmost leads
      have inner_le := length_le_depth inner (node next nil successor below)
      rw [isWhole] at inner_le
      simp only [unlinked, leads, List.length_append, List.length_cons]
      rw [depth] at short
      omega

/-- Erasing a node of a balanced tree in memory leaves the tree that `Tree.eraseAt` leaves. -/
theorem erase_eq {bound : Nat} (balanced : (plug path (node color left value right)).Balanced)
    (represents : Represents mem root (plug path (node color left value right)))
    (nodup : (plug path (node color left value right)).toList.Nodup)
    (enough : (plug path (node color left value right)).depth ≤ bound) :
    ∃ mem', erase bound mem value root = .ok mem' ∧
      Represents mem' root (eraseAt color left right path) ∧
      Within mem mem' root (plug path (node color left value right)).toList := by
  have perm := perm_plug path (node color left value right)
  have shallow : right.depth < bound := by
    have short := length_le_depth path (node color left value right)
    rw [depth] at short
    omega
  obtain ⟨mem₁, unlinks, represents₁, within₁⟩ :=
    eraseAugmented_eq represents (perm.nodup_iff.mp nodup) shallow
  have within₁ := within₁.mono fun rb member => perm.mem_iff.mpr member
  have short := (length_unlinked color left value right path).trans enough
  have lacks := unlinked_lacks balanced
  have nodes := perm_eraseAt color left value right path
  rw [← toList_unlinked] at nodes
  rw [eraseAt_eq_unlinked, erase, unlinks, ok_bind]
  generalize unlinked color left right path = state at *
  obtain ⟨focus, place, lacking⟩ := state
  cases lacking with
  | false => exact ⟨mem₁, by simp, represents₁, within₁⟩
  | true =>
      obtain ⟨isNil, fits⟩ := lacks rfl
      simp only at isNil fits short represents₁ nodes ⊢
      subst isNil
      cases place with
      | nil => exact ⟨mem₁, by simp [above], represents₁, within₁⟩
      | cons frame place =>
          obtain ⟨-, hangs⟩ := (represents_plug _ _).mp represents₁
          have notNull : above 0 (frame :: place) ≠ 0 := hangs.1.1.ne_null
          have rest := (nodes.nodup_iff.mp nodup).of_cons
          have held := perm_plug (frame :: place) nil
          obtain ⟨mem', loops, represents', within⟩ := represents_eraseLoop .nil fits
            (List.cons_ne_nil _ _) short represents₁ (held.nodup_iff.mp rest)
          refine ⟨mem', ?_, represents', within₁.trans (within.mono ?_)⟩
          · rw [if_pos trivial, if_pos notNull]
            exact loops
          · intro rb member
            exact nodes.mem_iff.mpr (List.mem_cons_of_mem _ (held.mem_iff.mpr member))

/-- Erasing any node of a balanced tree takes at most twice the logarithm of the number of nodes
in iterations, takes the node out of the sequence and moves no other, keeps the tree balanced
and changes no node outside of it. -/
theorem erase_represents {tree : Tree U64} {front back : List U64} {bound : Nat}
    (balanced : tree.Balanced) (represents : Represents mem root tree) (nodup : tree.toList.Nodup)
    (split : tree.toList = front ++ value :: back)
    (enough : 2 * Nat.log 2 (tree.toList.length + 1) ≤ bound) :
    ∃ mem' tree', erase bound mem value root = .ok mem' ∧ Represents mem' root tree' ∧
      tree'.Balanced ∧ tree'.toList = front ++ back ∧ Within mem mem' root tree.toList := by
  obtain ⟨path, color, left, right, whole, ahead, behind⟩ := exists_plug_of_toList [] split
  rw [plug] at whole
  rw [before, List.nil_append] at ahead
  rw [after, List.append_nil] at behind
  have shallow := balanced.depth_le.trans enough
  rw [← whole] at represents balanced nodup shallow ⊢
  obtain ⟨mem', erases, represents', within⟩ := erase_eq balanced represents nodup shallow
  refine ⟨mem', _, erases, represents', balanced_eraseAt balanced, ?_, within⟩
  rw [toList_eraseAt, ← List.append_assoc, ahead, List.append_assoc, behind]

/-- The root, which has two children, goes. Its successor 32 was black, so that a rotation
makes 16 the root. -/
theorem erase_represents_four :
    ∃ mem' tree', erase 5 four 24 0 = .ok mem' ∧ Represents mem' 0 tree' ∧ tree'.Balanced ∧
      tree'.toList = [8, 16, 32] ∧ mem'.root 0 = 16 ∧ Within four mem' 0 [8, 16, 24, 32] := by
  obtain ⟨mem', tree', erases, represents, balanced, row, within⟩ :=
    @erase_represents four 0 24 fourTree [8, 16] [32] 5 balanced_four represents_four nodup_four
      rfl (show 2 * Nat.log 2 5 ≤ 5 by decide +kernel)
  have root : (erase 5 four 24 0).toOption.map (fun mem => mem.root 0) = some 16 := by decide
  rw [erases] at root
  exact ⟨mem', tree', erases, represents, balanced, row, Option.some.inj root, within⟩

end DwBpf.Rb
