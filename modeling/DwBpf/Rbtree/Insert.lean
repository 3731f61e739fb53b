import DwBpf.Rbtree.Shape

/-! # Inserting into a tree in memory -/

namespace DwBpf.Rb

/-- `tmp && rb_is_red(tmp)` -/
def isRedNode (mem : Memory) (tmp : U64) : Except Failure Bool :=
  if tmp ≠ 0 then isRed mem tmp else return false

/-- `if (tmp) rb_set_parent_color(tmp, parent, RB_BLACK)` -/
def adopt (mem : Memory) (tmp parent : U64) : Except Failure Memory :=
  if tmp ≠ 0 then setParentColor mem tmp parent .black else return mem

/-- Case 1 of `__rb_insert`: the parent of the grandparent, which is red afterwards. -/
def flipColors (mem : Memory) (gparent parent uncle : U64) : Except Failure (U64 × Memory) := do
  let mem ← setParentColor mem uncle gparent .black
  let mem ← setParentColor mem parent gparent .black
  let next ← Rb.parent mem gparent
  let mem ← setParentColor mem gparent next .red
  return (next, mem)

/-- Case 2 of `__rb_insert`, a rotation at the parent: what is `tmp` afterwards. -/
def rotateParent (mem : Memory) (side : Side) (node parent : U64) :
    Except Failure (U64 × Memory) := do
  let tmp ← mem.load side node
  let mem ← mem.store side.flip parent tmp
  let mem ← mem.store side node parent
  let mem ← adopt mem tmp parent
  let mem ← setParentColor mem parent node .red
  return (← mem.load side.flip node, mem)

/-- Case 3 of `__rb_insert`, a rotation at the grandparent. -/
def rotateGparent (mem : Memory) (root : U64) (side : Side) (gparent parent tmp : U64) :
    Except Failure Memory := do
  let mem ← mem.store side gparent tmp
  let mem ← mem.store side.flip parent gparent
  let mem ← adopt mem tmp gparent
  rotateSetParents mem gparent parent root .red

/-- Below a black uncle: Case 2, if the node is on the other side of its parent, and Case 3. -/
def rotateTwice (mem : Memory) (root : U64) (side : Side) (gparent parent node : U64) :
    Except Failure Memory := do
  let tmp ← mem.load side.flip parent
  if node = tmp then
    let (tmp, mem) ← rotateParent mem side node parent
    rotateGparent mem root side gparent node tmp
  else
    rotateGparent mem root side gparent parent tmp

/-- The loop of `__rb_insert`. Its two halves mirror each other, and `side` says on which
side of `gparent` the parent is. -/
def insertLoop (root : U64) : Nat → U64 → U64 → Memory → Except Failure Memory
  | 0, _, _, _ => .error .unfinished
  | fuel + 1, node, parent, mem => do
      if parent = 0 then
        setParentColor mem node 0 .black
      else if ← isBlack mem parent then
        return mem
      else
        let gparent ← redParent mem parent
        let side := if parent ≠ (← mem.load .right gparent) then Side.left else .right
        let uncle ← mem.load side.flip gparent
        if ← isRedNode mem uncle then
          let (next, mem) ← flipColors mem gparent parent uncle
          insertLoop root fuel gparent next mem
        else
          rotateTwice mem root side gparent parent node

/-- `rb_insert_color`, with a bound for the number of iterations. -/
def insertColor (bound : Nat) (mem : Memory) (node root : U64) : Except Failure Memory := do
  insertLoop root bound node (← redParent mem node) mem

/-- The way down of the callers, which compare what is sought with the object around the node
that a link points to: the node they stop at, or the link at which they fall off and its
node. -/
def descend (mem : Memory) (steer : U64 → Ordering) :
    Nat → U64 → Link → Except Failure (U64 ⊕ U64 × Link)
  | 0, _, _ => .error .unfinished
  | fuel + 1, parent, link => do
      let this ← link.get mem
      if this = 0 then
        return .inr (parent, link)
      else
        match steer this with
        | .lt => descend mem steer fuel this (.child .left this)
        | .gt => descend mem steer fuel this (.child .right this)
        | .eq => return .inl this

/-- Go down from the root, and link and colour a node where the way ends. -/
def insert (bound : Nat) (steer : U64 → Ordering) (mem : Memory) (node root : U64) :
    Except Failure (Option U64 × Memory) := do
  match ← descend mem steer bound 0 (.root root) with
  | .inl found => return (some found, mem)
  | .inr (parent, link) =>
      let mem ← linkNode mem node parent link
      let mem ← insertColor bound mem node root
      return (none, mem)

open DwBpf.Tree

variable {mem : Memory} {root gparent up parent : U64} {side : Side} {color : Color}
  {inner outer uncle tree : Tree U64} {tmp up' : U64} {rest : List (Frame U64)}

theorem adopt_eq (spans : Spans mem up' tree) (parent : U64) :
    adopt mem (addr tree) parent = .ok (mem.settle tree.blacken parent) := by
  cases tree with
  | nil => rfl
  | node color left value right =>
      rw [adopt, addr, if_pos spans.1.ne_null, setParentColor_eq spans.1.live]
      rfl

/-- Case 3 hangs the grandparent below the parent. -/
theorem represents_rotateGparent (hangs : Hangs mem root rest gparent)
    (live : mem.nodes.live gparent = true) (parentLive : mem.nodes.live parent = true)
    (word : mem.parentColor gparent = pack (above 0 rest) color)
    (beside : mem.child side.flip gparent = addr uncle) (below : mem.child side parent = addr outer)
    (isOuter : Spans mem parent outer) (isInner : Spans mem up inner)
    (isUncle : Spans mem gparent uncle)
    (nodup : (outer.toList ++ parent :: (inner.toList ++
      gparent :: (uncle.toList ++ held rest))).Nodup) :
    ∃ mem', rotateGparent mem root side gparent parent (addr inner) = .ok mem' ∧
      Represents mem' root (plug rest (attach ⟨side, color, parent,
        attach ⟨side, .red, gparent, uncle⟩ inner.blacken⟩ outer)) ∧
      Within mem mem' root (parent :: gparent :: (inner.toList ++ held rest)) := by
  have distinct := nodup
  simp only [List.nodup_append, List.nodup_cons, List.mem_append, List.mem_cons] at distinct
  have different : parent ≠ gparent := by grind
  let linked := (mem.putChild side gparent (addr inner)).putChild side.flip parent gparent
  have toLinked : Within mem linked root [parent, gparent] :=
    (within_putChild root side gparent _ (by simp)).trans
      (within_putChild root side.flip parent _ (by simp))
  have innerLinked : Spans linked up inner := isInner.within toLinked (by grind)
  let adopted := linked.settle inner.blacken gparent
  have fromLinked : Within linked adopted root inner.blacken.toList :=
    within_settle root inner.blacken gparent
  have toAdopted : Within mem adopted root (parent :: gparent :: inner.toList) :=
    (toLinked.mono (by simp)).trans (fromLinked.mono (by grind))
  have adopts : adopt ((mem.putChild side gparent (addr inner)).putChild side.flip parent gparent)
      (addr inner) gparent = .ok adopted := adopt_eq innerLinked gparent
  have oldWord : adopted.parentColor gparent = pack (above 0 rest) color :=
    (fromLinked.same gparent (by grind)).word.trans word
  have oldNear : adopted.child side gparent = addr inner.blacken := by simp [adopted, linked]
  have oldFar : adopted.child side.flip gparent = addr uncle := by
    simp [adopted, linked, different.symm, beside]
  have newNear : adopted.child side parent = addr outer := by
    simp [adopted, linked, different, below]
  have newFar : adopted.child side.flip parent = gparent := by simp [adopted, linked]
  obtain ⟨mem', turns, represents, within⟩ := represents_rotateSetParents
    (hangs.within toAdopted (by simp [adopted, linked]) (by grind))
    (by rw [toAdopted.nodes, live]) (by rw [toAdopted.nodes, parentLive]) oldWord oldNear oldFar
    newNear newFar (isOuter.within toAdopted (by grind))
      (innerLinked.settle (blacken_blacken inner) (by grind))
    (isUncle.within toAdopted (by grind)) (by rw [toList_blacken]; exact nodup)
  refine ⟨mem', ?_, represents, ?_⟩
  · simp only [rotateGparent, Memory.store_of_live, live, parentLive, ok_bind,
      Memory.putChild_nodes, adopts]
    exact turns
  · exact (toAdopted.mono (by grind)).trans (within.mono (by grind))

/-- Case 2 hangs the parent below the new node. -/
theorem rotateParent_eq {node : U64} {sibling near far : Tree U64} (root : U64)
    (live : mem.nodes.live node = true) (parentLive : mem.nodes.live parent = true)
    (isNear : mem.child side node = addr near) (isFar : mem.child side.flip node = addr far)
    (beside : mem.child side parent = addr sibling) (nearSpans : Spans mem up near)
    (isSibling : Spans mem parent sibling)
    (nodup : (node :: parent :: (near.toList ++ sibling.toList)).Nodup) :
    ∃ mem', rotateParent mem side node parent = .ok (addr far, mem') ∧
      mem'.child side node = parent ∧ mem'.root = mem.root ∧
      Spans mem' node (attach ⟨side.flip, .red, parent, sibling⟩ near.blacken) ∧
      Within mem mem' root (node :: parent :: near.toList) := by
  simp only [List.nodup_append, List.nodup_cons, List.mem_append, List.mem_cons] at nodup
  have different : node ≠ parent := by grind
  let linked := (mem.putChild side.flip parent (addr near)).putChild side node parent
  have toLinked : Within mem linked root [node, parent] :=
    (within_putChild root side.flip parent _ (by simp)).trans
      (within_putChild root side node _ (by simp))
  have nearLinked : Spans linked up near := nearSpans.within toLinked (by grind)
  let adopted := linked.settle near.blacken parent
  have toAdopted : Within mem adopted root (node :: parent :: near.toList) :=
    (toLinked.mono (by simp)).trans ((within_settle root near.blacken parent).mono (by grind))
  have adopts : adopt ((mem.putChild side.flip parent (addr near)).putChild side node parent)
      (addr near) parent = .ok adopted := adopt_eq nearLinked parent
  let turned := adopted.putWord parent (pack node .red)
  have toTurned : Within adopted turned root [parent] := within_putWord root parent _ (by simp)
  have whole : Within mem turned root (node :: parent :: near.toList) :=
    toAdopted.trans (toTurned.mono (by simp))
  refine ⟨turned, ?_, ?_, ?_, ?_, whole⟩
  · simp only [rotateParent, Memory.load_of_live, Memory.store_of_live, live, parentLive, ok_bind,
      Memory.putChild_nodes, isNear, adopts, setParentColor_eq, toAdopted.nodes,
      pure_eq_ok, Memory.putWord_nodes, Memory.putWord_child]
    simp [adopted, linked, different, isFar, turned]
  · simp [turned, adopted, linked]
  · simp [turned, adopted, linked]
  · rw [spans_attach, addr_blacken]
    refine ⟨⟨?_, ?_, ?_, ?_⟩, ?_, isSibling.within whole (by grind)⟩
    · rw [whole.nodes, parentLive]
    · simp [turned]
    · simp [turned, adopted, linked]
    · simp [turned, adopted, linked, different.symm, beside]
    · exact (nearLinked.settle (blacken_blacken near) (by grind)).within toTurned (by
        rw [toList_blacken]
        grind)

/-- The mirrored halves of the loops are told apart by the address of the child. -/
theorem Cell.side_eq {near far : U64} (cell : Cell mem parent up color side near far)
    (different : near ≠ far) :
    (if near ≠ mem.child .right parent then Side.left else .right) = side := by
  cases side with
  | left => rw [show mem.child .right parent = far from cell.far, if_pos different]
  | right => rw [cell.near, if_neg (fun notSame => notSame rfl)]

theorem pack_red (up : U64) : pack up .red = up := BitVec.or_zero

theorem exists_of_isRed (isRed : tree.isRed = true) :
    ∃ left value right, tree = node .red left value right := by
  rcases tree with _ | ⟨_ | _, left, value, right⟩
  · cases isRed
  · exact ⟨left, value, right, rfl⟩
  · cases isRed

theorem isRedNode_eq (spans : Spans mem up tree) (aligned : up &&& 3 = 0) :
    isRedNode mem (addr tree) = .ok tree.isRed := by
  cases tree with
  | nil => rfl
  | node color left value right =>
      rw [isRedNode, addr, if_pos spans.1.ne_null, isRed_eq spans.1.live spans.1.word aligned]
      cases color <;> rfl

theorem ne_addr (notNull : parent ≠ 0) (fresh : parent ∉ tree.toList) : parent ≠ addr tree := by
  intro same
  rw [same] at notNull fresh
  exact fresh (addr_mem fun isNil => notNull (by rw [isNil, addr]))

/-- The nodes around the grandparent, before and after a change of colours. -/
theorem perm_flip (side side' : Side) (color color' : Color) (gparent parent : U64)
    (tree sibling : Tree U64) (rest : List (Frame U64)) {uncle uncle' : Tree U64}
    (same : uncle'.toList = uncle.toList) :
    ((attach ⟨side, .red, gparent, uncle'⟩ (attach ⟨side', .black, parent, sibling⟩ tree)).toList ++
        held rest).Perm
      (tree.toList ++ held (⟨side', color', parent, sibling⟩ ::
        ⟨side, color, gparent, uncle⟩ :: rest)) := by
  refine List.perm_iff_count.mpr fun rb => ?_
  have outer := (perm_attach ⟨side, .red, gparent, uncle'⟩
    (attach ⟨side', .black, parent, sibling⟩ tree)).count_eq rb
  have inner := (perm_attach ⟨side', .black, parent, sibling⟩ tree).count_eq rb
  simp only [held, same, List.count_append, List.count_cons] at outer inner ⊢
  omega

/-- Case 1 moves the red up to the grandparent. -/
theorem flipColors_eq {side' : Side} {sibling uncleLeft uncleRight : Tree U64} {value : U64}
    (spans : Spans mem parent tree)
    (hangs : Hangs mem root (⟨side', .red, parent, sibling⟩ ::
      ⟨side, color, gparent, node .red uncleLeft value uncleRight⟩ :: rest) (addr tree))
    (nodup : (tree.toList ++ held (⟨side', .red, parent, sibling⟩ ::
      ⟨side, color, gparent, node .red uncleLeft value uncleRight⟩ :: rest)).Nodup) :
    ∃ mem', flipColors mem gparent parent value = .ok (above 0 rest, mem') ∧
      Spans mem' (above 0 rest) (attach ⟨side, .red, gparent,
        node .black uncleLeft value uncleRight⟩ (attach ⟨side', .black, parent, sibling⟩ tree)) ∧
      Hangs mem' root rest gparent ∧ Within mem mem' root [value, parent, gparent] := by
  obtain ⟨⟨cell, isSibling, gcell, gspans, climbs⟩, roots⟩ := hangs
  simp only [held, toList_node, List.nodup_append, List.nodup_cons, List.mem_append,
    List.mem_cons] at nodup
  have different : parent ≠ gparent := by grind
  have notGparent : value ≠ gparent := by grind
  have notParent : value ≠ parent := by grind
  let flipped := (mem.putWord value (pack gparent .black)).putWord parent (pack gparent .black)
  have word : flipped.parentColor gparent = pack (above 0 rest) color := by
    simp [flipped, different.symm, notGparent.symm, gcell.word]
  have within : Within mem (flipped.putWord gparent (pack (above 0 rest) .red)) root
      [value, parent, gparent] :=
    ((within_putWord root _ _ (by simp)).trans (within_putWord root _ _ (by simp))).trans
      (within_putWord root _ _ (by simp))
  refine ⟨_, ?_, ?_, ?_, within⟩
  · simp only [flipColors, setParentColor_eq, gspans.1.live, cell.live, gcell.live, ok_bind,
      Memory.putWord_nodes]
    have live : flipped.nodes.live gparent = true := gcell.live
    rw [show Rb.parent _ gparent = _ from parent_eq live word climbs.aligned]
    rfl
  · rw [spans_attach, spans_attach, addr_attach]
    refine ⟨⟨gcell.live, ?_, gcell.near, gcell.far⟩, ⟨⟨cell.live, ?_, cell.near, cell.far⟩,
      spans.within within (by grind), isSibling.within within (by grind)⟩, ?_⟩
    · simp
    · simp [flipped, different]
    · refine gspans.rehang within.nodes ?_ (fun _ => rfl) fun rb member => within.same rb (by grind)
      simp [flipped, notGparent, notParent]
  · exact Hangs.within ⟨climbs, roots⟩ within rfl (by grind)

section Equations

variable {left right sibling : Tree U64} {value : U64}

theorem insertColor_outer (notRed : uncle.isRed = false) :
    Tree.insertColor left value right
        (⟨side, .red, parent, sibling⟩ :: ⟨side, color, gparent, uncle⟩ :: rest) =
      plug rest (attach ⟨side, color, parent, attach ⟨side, .red, gparent, uncle⟩ sibling.blacken⟩
        (node .red left value right)) := by
  rcases uncle with _ | ⟨_ | _, _, _, _⟩
  · cases side <;> rfl
  · cases notRed
  · cases side <;> rfl

theorem insertColor_inner (notRed : uncle.isRed = false) :
    Tree.insertColor left value right
        (⟨side.flip, .red, parent, sibling⟩ :: ⟨side, color, gparent, uncle⟩ :: rest) =
      plug rest (attach ⟨side, color, value,
          attach ⟨side, .red, gparent, uncle⟩ (child left right side.flip).blacken⟩
        (attach ⟨side.flip, .red, parent, sibling⟩ (child left right side).blacken)) := by
  rcases uncle with _ | ⟨_ | _, _, _, _⟩
  · cases side <;> rfl
  · cases notRed
  · cases side <;> rfl

/-- Below a red uncle the grandparent takes the place of the new node. -/
theorem insertColor_flip (left right sibling : Tree U64) (value : U64) (side side' : Side)
    (color : Color) (gparent parent : U64) (uncleLeft uncleRight : Tree U64) (value' : U64)
    (rest : List (Frame U64)) :
    ∃ left' right', attach ⟨side, .red, gparent, node .black uncleLeft value' uncleRight⟩
          (attach ⟨side', .black, parent, sibling⟩ (node .red left value right)) =
        node .red left' gparent right' ∧
      Tree.insertColor left value right (⟨side', .red, parent, sibling⟩ ::
          ⟨side, color, gparent, node .red uncleLeft value' uncleRight⟩ :: rest) =
        Tree.insertColor left' gparent right' rest := by
  cases side with
  | left => exact ⟨_, _, rfl, rfl⟩
  | right => exact ⟨_, _, rfl, rfl⟩

end Equations

/-- Cases 2 and 3 below a black uncle. -/
theorem represents_rotateTwice {side' : Side} {left right sibling : Tree U64} {value : U64}
    (notRed : uncle.isRed = false) (spans : Spans mem parent (node .red left value right))
    (hangs : Hangs mem root
      (⟨side', .red, parent, sibling⟩ :: ⟨side, color, gparent, uncle⟩ :: rest)
      value)
    (nodup : ((node .red left value right).toList ++
      held (⟨side', .red, parent, sibling⟩ :: ⟨side, color, gparent, uncle⟩ :: rest)).Nodup) :
    ∃ mem', rotateTwice mem root side gparent parent value = .ok mem' ∧
      Represents mem' root (Tree.insertColor left value right
        (⟨side', .red, parent, sibling⟩ :: ⟨side, color, gparent, uncle⟩ :: rest)) ∧
      Within mem mem' root ((node .red left value right).toList ++
        held (⟨side', .red, parent, sibling⟩ :: ⟨side, color, gparent, uncle⟩ :: rest)) := by
  obtain ⟨⟨cell, isSibling, gcell, isUncle, climbs⟩, roots⟩ := hangs
  have distinct := nodup
  simp only [held, toList_node, List.nodup_append, List.nodup_cons, List.mem_append,
    List.mem_cons] at distinct
  rw [rotateTwice, Memory.load_of_live _ cell.live, ok_bind]
  rcases Side.eq_or_flip side side' with rfl | rfl
  · have below : mem.child side' parent = addr (node .red left value right) := cell.near
    rw [cell.far, if_neg (ne_addr spans.1.ne_null (by grind)), insertColor_outer notRed]
    obtain ⟨mem', rotates, represents, within⟩ := represents_rotateGparent ⟨climbs, roots⟩
      gcell.live cell.live gcell.word gcell.far below spans isSibling isUncle nodup
    refine ⟨mem', rotates, represents, within.mono ?_⟩
    simp only [held]
    grind
  · have beside : mem.child side parent = addr sibling := by
      have far := cell.far
      rwa [Side.flip_flip] at far
    rw [cell.near, if_pos rfl, insertColor_inner notRed]
    obtain ⟨vcell, nearSpans, farSpans⟩ := (spans_node side).mp spans
    have halves := (perm_child left right side).nodup_iff.mpr (by grind)
    have inHalves := fun rb => (perm_child left right side).mem_iff (a := rb)
    simp only [List.nodup_append, List.mem_append] at halves inHalves
    obtain ⟨mem₁, rotates, below, roots₁, spans₁, within₁⟩ := rotateParent_eq root vcell.live
      cell.live vcell.near vcell.far beside nearSpans isSibling (by grind)
    rw [rotates, ok_bind]
    have hangs₁ : Hangs mem₁ root rest gparent :=
      Hangs.within ⟨climbs, roots⟩ within₁ roots₁ (by grind)
    have same := within₁.same gparent (by grind)
    obtain ⟨mem', turns, represents, within⟩ := represents_rotateGparent hangs₁
      (by rw [within₁.nodes, gcell.live]) (by rw [within₁.nodes, vcell.live])
      (same.word.trans gcell.word) ((same.child _).trans gcell.far)
      (below.trans (addr_attach _ _).symm) spans₁ (farSpans.within within₁ (by grind))
      (isUncle.within within₁ (by grind)) (by
        refine (List.Perm.nodup_iff (List.perm_iff_count.mpr fun rb => ?_)).mp nodup
        have first := (perm_child left right side).count_eq rb
        have second := (perm_attach ⟨side.flip, .red, parent, sibling⟩
          (child left right side).blacken).count_eq rb
        simp only [held, toList_node, List.count_append, List.count_cons,
          toList_blacken] at first second ⊢
        omega)
    refine ⟨mem', turns, represents, (within₁.mono ?_).trans (within.mono ?_)⟩
    · simp only [held, toList_node]
      grind
    · simp only [held, toList_node]
      grind

/-- The loop of `__rb_insert` does to the memory what `Tree.insertColor` does to the tree. -/
theorem represents_insertLoop {height : Nat} {left right : Tree U64} {value : U64} {fuel : Nat}
    {path : List (Frame U64)} (fits : Fits path .black height) (enough : path.length < fuel)
    (spans : Spans mem (above 0 path) (node .red left value right))
    (hangs : Hangs mem root path value)
    (nodup : ((node .red left value right).toList ++ held path).Nodup) :
    ∃ mem', insertLoop root fuel value (above 0 path) mem = .ok mem' ∧
      Represents mem' root (Tree.insertColor left value right path) ∧
      Within mem mem' root ((node .red left value right).toList ++ held path) := by
  induction fuel generalizing mem left value right path height with
  | zero => exact absurd enough (Nat.not_lt_zero _)
  | succ fuel ih =>
      cases path with
      | nil =>
          have turns : insertLoop root (fuel + 1) value 0 mem =
              .ok (mem.putWord value (pack 0 .black)) := by
            rw [insertLoop, if_pos rfl, setParentColor_eq spans.1.live]
          have within : Within mem (mem.putWord value (pack 0 .black)) root [value] :=
            within_putWord root value _ (by simp)
          rw [held, List.append_nil, toList_node, List.nodup_middle, List.nodup_cons] at nodup
          refine ⟨_, turns, ⟨?_, hangs.2⟩, within.mono (by simp)⟩
          refine spans.rehang rfl (by simp) (fun _ => rfl) fun rb member => within.same rb ?_
          grind
      | cons frame rest =>
          obtain ⟨side', color, parent, sibling⟩ := frame
          have cell := hangs.1.1
          have isParent : isBlack mem parent = .ok (decide (color = .black)) :=
            isBlack_eq cell.live cell.word hangs.1.2.2.aligned
          rw [insertLoop, above, if_neg cell.ne_null, isParent, ok_bind]
          cases color with
          | black =>
              refine ⟨mem, rfl, ?_, .refl ..⟩
              exact (represents_plug _ _).mpr ⟨spans, hangs⟩
          | red =>
              cases rest with
              | nil =>
                  cases fits with
                  | red _ above => cases above
              | cons gframe rest =>
                  obtain ⟨side, gcolor, gparent, uncle⟩ := gframe
                  obtain ⟨gcell, isUncle, climbs⟩ := hangs.1.2.2
                  have distinct := nodup
                  simp only [held, toList_node, List.nodup_append, List.nodup_cons,
                    List.mem_append, List.mem_cons] at distinct
                  have different : parent ≠ addr uncle := ne_addr cell.ne_null (by grind)
                  have isGparent : redParent mem parent = .ok gparent := by
                    rw [redParent, Memory.word_of_live cell.live, cell.word, pack_red]
                    rfl
                  simp only [reduceCtorEq, decide_false, Bool.false_eq_true, ↓reduceIte, isGparent,
                    ok_bind, Memory.load_of_live _ gcell.live, gcell.side_eq different, gcell.far,
                    isRedNode_eq isUncle gcell.aligned]
                  cases isRed : uncle.isRed with
                  | false => exact represents_rotateTwice isRed spans hangs nodup
                  | true =>
                      obtain ⟨uncleLeft, uncle, uncleRight, rfl⟩ := exists_of_isRed isRed
                      have belowParent : Spans mem parent (node .red left value right) := spans
                      obtain ⟨mem₁, flips, spans₁, hangs₁, within₁⟩ :=
                        flipColors_eq belowParent hangs nodup
                      obtain ⟨left', right', isNode, inserts⟩ := insertColor_flip left right sibling
                        value side side' gcolor gparent parent uncleLeft uncleRight uncle rest
                      rw [if_pos rfl, addr, flips, ok_bind, inserts]
                      rw [isNode] at spans₁
                      obtain ⟨-, -, -, above⟩ := fits.gparent rfl
                      have shorter : rest.length < fuel := by
                        simp only [List.length_cons] at enough
                        omega
                      have perm := perm_flip side side' gcolor .red gparent parent
                        (node .red left value right) sibling rest
                        (show (node .black uncleLeft uncle uncleRight).toList =
                          (node .red uncleLeft uncle uncleRight).toList from rfl)
                      obtain ⟨mem', loops, represents, within⟩ := ih above shorter spans₁ hangs₁ (by
                        rw [← isNode, perm.nodup_iff]
                        exact nodup)
                      rw [← isNode] at within
                      refine ⟨mem', loops, represents, (within₁.mono ?_).trans (within.mono ?_)⟩
                      · simp [held]
                      · intro rb member
                        exact perm.mem_iff.mp member

/-- The link at the end of a path. -/
def linkOf (root : U64) : List (Frame U64) → Link
  | [] => .root root
  | frame :: _ => .child frame.side frame.value

variable {steer : U64 → Ordering} {path : List (Frame U64)} {fuel : Nat}

theorem get_linkOf {hung : U64} (hangs : Hangs mem root path hung) :
    (linkOf root path).get mem = .ok hung := by
  cases path with
  | nil => exact congrArg Except.ok hangs.2
  | cons frame path =>
      rw [linkOf, Link.get, Memory.load_of_live _ hangs.1.1.live, hangs.1.1.near]

theorem set_linkOf {hung : U64} (hangs : Hangs mem root path hung) (new : U64) :
    (linkOf root path).set mem new = .ok (mem.hang root path new) := by
  cases path with
  | nil => rfl
  | cons frame path => exact Memory.store_of_live _ _ hangs.1.1.live

/-- The way down is the one of `Tree.locate`. -/
theorem descend_eq (spans : Spans mem (above 0 path) tree) (hangs : Hangs mem root path (addr tree))
    (enough : tree.depth < fuel) :
    descend mem steer fuel (above 0 path) (linkOf root path) =
      .ok ((tree.locate steer path).map id fun leaf => (above 0 leaf, linkOf root leaf)) := by
  induction tree generalizing path fuel with
  | nil =>
      cases fuel with
      | zero => cases enough
      | succ fuel =>
          rw [descend, get_linkOf hangs]
          rfl
  | node color left here right ihLeft ihRight =>
      cases fuel with
      | zero => cases enough
      | succ fuel =>
          rw [depth] at enough
          rw [descend, get_linkOf hangs, ok_bind, addr, if_neg spans.1.ne_null, locate]
          cases steer here with
          | lt =>
              refine @ihLeft (⟨.left, color, here, right⟩ :: path) fuel spans.2.1 ?_ (by omega)
              exact ⟨⟨spans.1, spans.2.2, hangs.1⟩, hangs.2⟩
          | gt =>
              refine @ihRight (⟨.right, color, here, left⟩ :: path) fuel spans.2.2 ?_ (by omega)
              exact ⟨⟨spans.1.flip, spans.2.1, hangs.1⟩, hangs.2⟩
          | eq => rfl

/-- A node linked where a way down ended. -/
theorem linkNode_eq {new : U64} (hangs : Hangs mem root path 0) (live : mem.nodes.live new = true)
    (fresh : new ∉ held path) (nodup : (held path).Nodup) :
    ∃ mem', linkNode mem new (above 0 path) (linkOf root path) = .ok mem' ∧
      Spans mem' (above 0 path) (node .red nil new nil) ∧ Hangs mem' root path new ∧
      Within mem mem' root (new :: held path) := by
  let blank := ((mem.putWord new (above 0 path)).putChild .right new 0).putChild .left new 0
  have toBlank : Within mem blank root [new] :=
    ((within_putWord root new _ (by simp)).trans (within_putChild root _ new _ (by simp))).trans
      (within_putChild root _ new _ (by simp))
  have hangsBlank : Hangs blank root path 0 := hangs.within toBlank rfl (by grind)
  have spans : Spans blank (above 0 path) (node .red nil new nil) := by
    refine ⟨⟨live, ?_, ?_, ?_⟩, trivial, trivial⟩
    · simp [blank, pack_red]
    · simp [blank, addr]
    · simp [blank, addr, Side.flip]
  refine ⟨blank.hang root path new, ?_, ?_, hangsBlank.hang nodup new, ?_⟩
  · simp only [linkNode, Memory.setWord_of_live, Memory.store_of_live, live, ok_bind,
      Memory.putWord_nodes, Memory.putChild_nodes]
    exact set_linkOf hangsBlank new
  · exact spans.within (within_hang new) (by simpa using fresh)
  · exact (toBlank.mono (by simp)).trans ((within_hang new).mono (by grind))

/-- Inserting into a balanced tree in memory: what is found is what `Tree.locate` finds, and a
node that is linked is linked where `Tree.link` links it. -/
theorem insert_eq {bound : Nat} {new : U64} (steer : U64 → Ordering) (balanced : tree.Balanced)
    (represents : Represents mem root tree) (nodup : tree.toList.Nodup)
    (live : mem.nodes.live new = true) (fresh : new ∉ tree.toList) (enough : tree.depth < bound) :
    match tree.locate steer [] with
    | .inl found => insert bound steer mem new root = .ok (some found, mem)
    | .inr leaf => ∃ mem', insert bound steer mem new root = .ok (none, mem') ∧
        Represents mem' root (link leaf new) ∧ Within mem mem' root (new :: tree.toList) := by
  have descends : descend mem steer bound (above 0 []) (linkOf root []) =
      .ok ((tree.locate steer []).map id fun leaf => (above 0 leaf, linkOf root leaf)) :=
    descend_eq represents.1 ⟨trivial, represents.2⟩ enough
  rw [above, linkOf] at descends
  cases located : tree.locate steer [] with
  | inl found =>
      rw [insert, descends, located]
      rfl
  | inr leaf =>
      have whole : plug leaf nil = tree := plug_of_locate located
      rw [← whole] at represents nodup fresh ⊢
      have inside : ∀ rb, rb ∈ (plug leaf nil).toList ↔ rb ∈ held leaf := fun rb =>
        (perm_plug leaf nil).mem_iff
      obtain ⟨-, hangs⟩ := (represents_plug leaf nil).mp represents
      have nodup : (held leaf).Nodup := (perm_plug leaf nil).nodup_iff.mp nodup
      have fresh : new ∉ held leaf := fun member => fresh ((inside new).mpr member)
      obtain ⟨mem₁, links, spans₁, hangs₁, within₁⟩ := linkNode_eq hangs live fresh nodup
      have shorter : leaf.length < bound := by
        have steps := length_of_locate located
        have depth := length_descent_le steer tree
        simp only [List.length_nil] at steps
        omega
      obtain ⟨mem', colors, represents', within⟩ := represents_insertLoop
        (fits_of_locate balanced located) shorter spans₁ hangs₁ (by
          simpa using ⟨fresh, nodup⟩)
      have starts : redParent mem₁ new = .ok (above 0 leaf) := by
        rw [redParent, Memory.word_of_live spans₁.1.live, spans₁.1.word, pack_red]
      refine ⟨mem', ?_, represents', (within₁.mono ?_).trans (within.mono ?_)⟩
      · rw [insert, descends, located]
        simp only [Sum.map_inr, ok_bind, links, insertColor, starts, colors, pure_eq_ok]
      · simp [inside]
      · simp [inside]

/-- Inserting takes at most twice the logarithm of the number of nodes in iterations, stops at
the node that the comparisons lead to or links the new one there, keeps the tree balanced and
changes no other node. -/
theorem insert_represents {bound : Nat} {new : U64} (steer : U64 → Ordering)
    (balanced : tree.Balanced) (represents : Represents mem root tree) (nodup : tree.toList.Nodup)
    (live : mem.nodes.live new = true) (fresh : new ∉ tree.toList)
    (enough : 2 * Nat.log 2 (tree.toList.length + 1) < bound) :
    match tree.locate steer [] with
    | .inl found => insert bound steer mem new root = .ok (some found, mem)
    | .inr leaf => ∃ mem', insert bound steer mem new root = .ok (none, mem') ∧
        Represents mem' root (link leaf new) ∧ (link leaf new).Balanced ∧
        Within mem mem' root (new :: tree.toList) := by
  have inserted := insert_eq steer balanced represents nodup live fresh
    (lt_of_le_of_lt balanced.depth_le enough)
  cases located : tree.locate steer [] with
  | inl found =>
      rw [located] at inserted
      exact inserted
  | inr leaf =>
      rw [located] at inserted
      obtain ⟨mem', inserts, represents', within⟩ := inserted
      exact ⟨mem', inserts, represents', balanced_link balanced located new, within⟩

theorem proper_nodes : ∀ rb ∈ ([8, 12, 16, 24, 32] : List U64), rb ≠ 0 ∧ rb &&& 3 = 0 := by simp

/-- Five nodes, four of which are in a tree: 24 is above 16 and 32, and 16 above 8. -/
def four : Memory where
  nodes := .at [8, 12, 16, 24, 32] proper_nodes
  parentColor rb :=
    if rb = 24 then 1 else if rb = 16 ∨ rb = 32 then 25 else if rb = 8 then 16 else rb
  child side rb :=
    match side with
    | .left => if rb = 24 then 16 else if rb = 16 then 8 else 0
    | .right => if rb = 24 then 32 else 0
  root root := if root = 0 then 24 else 0

/-- The tree of the four nodes, with a red node at its lowest place. -/
def fourTree : Tree U64 :=
  node .black (node .black (node .red nil 8 nil) 16 nil) 24 (node .black nil 32 nil)

theorem represents_four : Represents four 0 fourTree :=
  ⟨⟨⟨rfl, rfl, rfl, rfl⟩, ⟨⟨rfl, rfl, rfl, rfl⟩, ⟨⟨rfl, rfl, rfl, rfl⟩, trivial, trivial⟩, trivial⟩,
    ⟨rfl, rfl, rfl, rfl⟩, trivial, trivial⟩, rfl⟩

theorem balanced_four : fourTree.Balanced :=
  ⟨2, .black (.black (.red .nil .nil) .nil) (.black .nil .nil)⟩

theorem nodup_four : fourTree.toList.Nodup := by decide

/-- The new node 12 goes to the right of the red node 8, and two rotations put it above 8 and
16. -/
theorem insert_represents_four :
    ∃ mem', insert 5 (fun rb => compare 12 rb.toNat) four 12 0 = .ok (none, mem') ∧
      Represents mem' 0 (node .black (node .black (node .red nil 8 nil) 12 (node .red nil 16 nil))
        24 (node .black nil 32 nil)) ∧
      Within four mem' 0 [12, 8, 16, 24, 32] := by
  have live : four.nodes.live 12 = true := rfl
  have fresh : (12 : U64) ∉ fourTree.toList := by decide
  have inserted := insert_represents (fun rb => compare 12 rb.toNat) balanced_four represents_four
    nodup_four live fresh (show 2 * Nat.log 2 5 < 5 by decide +kernel)
  obtain ⟨mem', inserts, represents, -, within⟩ := inserted
  exact ⟨mem', inserts, represents, within⟩

end DwBpf.Rb
