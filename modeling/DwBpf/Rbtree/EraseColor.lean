import DwBpf.Rbtree.Insert

/-! # Rebalancing a tree in memory after an erasure -/

namespace DwBpf.Rb

/-- `!tmp || rb_is_black(tmp)` -/
def isBlackOrNull (mem : Memory) (tmp : U64) : Except Failure Bool :=
  if tmp = 0 then return true else isBlack mem tmp

/-- Case 1 of `____rb_erase_color`, a rotation at the parent: the new sibling. -/
def rotateSibling (mem : Memory) (root : U64) (side : Side) (parent sibling : U64) :
    Except Failure (U64 × Memory) := do
  let tmp1 ← mem.load side sibling
  let mem ← mem.store side.flip parent tmp1
  let mem ← mem.store side sibling parent
  let mem ← setParentColor mem tmp1 parent .black
  let mem ← rotateSetParents mem parent sibling root .red
  return (tmp1, mem)

/-- Case 2 of `____rb_erase_color`: the parent with which the loop goes on, or `NULL`. -/
def flipSibling (mem : Memory) (parent sibling : U64) : Except Failure (U64 × Memory) := do
  let mem ← setParentColor mem sibling parent .red
  if ← isRed mem parent then
    return (0, ← setBlack mem parent)
  else
    return (← Rb.parent mem parent, mem)

/-- Case 3 of `____rb_erase_color`, a rotation at the sibling. -/
def rotateNephew (mem : Memory) (side : Side) (parent sibling tmp2 : U64) :
    Except Failure Memory := do
  let tmp1 ← mem.load side.flip tmp2
  let mem ← mem.store side sibling tmp1
  let mem ← mem.store side.flip tmp2 sibling
  let mem ← mem.store side.flip parent tmp2
  adopt mem tmp1 sibling

/-- `if (tmp) rb_set_parent(tmp, parent)` -/
def keepColor (mem : Memory) (tmp parent : U64) : Except Failure Memory :=
  if tmp ≠ 0 then setParent mem tmp parent else return mem

/-- Case 4 of `____rb_erase_color`, a rotation at the parent that ends the loop. -/
def rotateAway (mem : Memory) (root : U64) (side : Side) (parent sibling tmp1 : U64) :
    Except Failure Memory := do
  let tmp2 ← mem.load side sibling
  let mem ← mem.store side.flip parent tmp2
  let mem ← mem.store side sibling parent
  let mem ← setParentColor mem tmp1 sibling .black
  let mem ← keepColor mem tmp2 parent
  rotateSetParents mem parent sibling root .black

/-- Cases 2 to 4 of `____rb_erase_color`, below a black sibling: the parent with which the
loop goes on, or `NULL`. -/
def eraseStep (mem : Memory) (root : U64) (side : Side) (parent sibling : U64) :
    Except Failure (U64 × Memory) := do
  let tmp1 ← mem.load side.flip sibling
  if ← isBlackOrNull mem tmp1 then
    let tmp2 ← mem.load side sibling
    if ← isBlackOrNull mem tmp2 then
      flipSibling mem parent sibling
    else
      let mem ← rotateNephew mem side parent sibling tmp2
      return (0, ← rotateAway mem root side parent tmp2 sibling)
  else
    return (0, ← rotateAway mem root side parent sibling tmp1)

/-- The loop of `____rb_erase_color`. Its two halves mirror each other, and `side` says on
which side of the parent the node is. -/
def eraseLoop (root : U64) : Nat → U64 → U64 → Memory → Except Failure Memory
  | 0, _, _, _ => .error .unfinished
  | fuel + 1, node, parent, mem => do
      let side := if node ≠ (← mem.load .right parent) then Side.left else .right
      let sibling ← mem.load side.flip parent
      let (sibling, mem) ←
        if ← isRed mem sibling then rotateSibling mem root side parent sibling
        else pure (sibling, mem)
      let (next, mem) ← eraseStep mem root side parent sibling
      if next ≠ 0 then
        eraseLoop root fuel parent next mem
      else
        return mem

open DwBpf.Tree

variable {mem : Memory} {root parent sibling up up' : U64} {side : Side} {color : Color}
  {focus near far tree : Tree U64} {rest : List (Frame U64)}

/-- The two children of a node can be named in either order. -/
theorem attach_flip (side : Side) (color : Color) (value : U64) (first second : Tree U64) :
    attach ⟨side.flip, color, value, first⟩ second = attach ⟨side, color, value, second⟩ first := by
  cases side <;> rfl

theorem setParent_eq {rb : U64} (live : mem.nodes.live rb = true)
    (word : mem.parentColor rb = pack up color) (aligned : up &&& 3 = 0) (p : U64) :
    setParent mem rb p = .ok (mem.putWord rb (pack p color)) := by
  rw [setParent, Memory.word_of_live live, ok_bind, Memory.setWord_of_live _ live, word,
    pack_and_one aligned, pack, BitVec.or_comm]

theorem keepColor_eq (spans : Spans mem up tree) (aligned : up &&& 3 = 0) (parent : U64) :
    keepColor mem (addr tree) parent = .ok (mem.settle tree parent) := by
  cases tree with
  | nil => rfl
  | node color left value right =>
      rw [keepColor, addr, if_pos spans.1.ne_null, setParent_eq spans.1.live spans.1.word aligned]
      rfl

theorem setParentColor_settle (spans : Spans mem up tree) (notNil : tree ≠ nil) (parent : U64) :
    setParentColor mem (addr tree) parent .black = .ok (mem.settle tree.blacken parent) := by
  cases tree with
  | nil => exact absurd rfl notNil
  | node color left value right => exact setParentColor_eq spans.1.live parent .black

/-- Case 4 hangs the parent below the sibling. -/
theorem represents_rotateAway (hangs : Hangs mem root rest parent)
    (live : mem.nodes.live parent = true) (siblingLive : mem.nodes.live sibling = true)
    (word : mem.parentColor parent = pack (above 0 rest) color)
    (below : mem.child side parent = addr focus) (isNear : mem.child side sibling = addr near)
    (isFar : mem.child side.flip sibling = addr far) (notNil : far ≠ nil)
    (aligned : up &&& 3 = 0) (isFocus : Spans mem parent focus) (nearSpans : Spans mem up near)
    (farSpans : Spans mem up' far)
    (nodup : (focus.toList ++ parent :: (near.toList ++ sibling :: (far.toList ++
      held rest))).Nodup) :
    ∃ mem', rotateAway mem root side parent sibling (addr far) = .ok mem' ∧
      Represents mem' root (plug rest (attach ⟨side, color, sibling, far.blacken⟩
        (attach ⟨side, .black, parent, near⟩ focus))) ∧
      Within mem mem' root (sibling :: parent :: (near.toList ++ (far.toList ++ held rest))) := by
  have distinct := nodup
  simp only [List.nodup_append, List.nodup_cons, List.mem_append, List.mem_cons] at distinct
  have different : sibling ≠ parent := by grind
  let linked := (mem.putChild side.flip parent (addr near)).putChild side sibling parent
  have toLinked : Within mem linked root [sibling, parent] :=
    (within_putChild root _ parent _ (by simp)).trans (within_putChild root _ sibling _ (by simp))
  have farLinked : Spans linked up' far := farSpans.within toLinked (by grind)
  let blackened := linked.settle far.blacken sibling
  have toBlackened : Within linked blackened root far.blacken.toList :=
    within_settle root far.blacken sibling
  have farBlackened : Spans blackened sibling far.blacken :=
    farLinked.settle (blacken_blacken far) (by grind)
  have nearBlackened : Spans blackened up near :=
    (nearSpans.within toLinked (by grind)).within toBlackened (by grind)
  let kept := blackened.settle near parent
  have toKept : Within blackened kept root near.toList := within_settle root near parent
  have nearKept : Spans kept parent near := nearBlackened.settle rfl (by grind)
  have whole : Within mem kept root (sibling :: parent :: (near.toList ++ far.toList)) :=
    ((toLinked.mono (by simp)).trans (toBlackened.mono (by grind))).trans (toKept.mono (by grind))
  have oldWord : kept.parentColor parent = pack (above 0 rest) color :=
    (toKept.same parent (by grind)).word.trans
      ((toBlackened.same parent (by grind)).word.trans word)
  have oldNear : kept.child side.flip parent = addr near := by simp [kept, blackened, linked]
  have oldFar : kept.child side.flip.flip parent = addr focus := by
    simp [kept, blackened, linked, different.symm, below]
  have newNear : kept.child side.flip sibling = addr far.blacken := by
    simp [kept, blackened, linked, different, isFar]
  have newFar : kept.child side.flip.flip sibling = parent := by simp [kept, blackened, linked]
  obtain ⟨mem', turns, represents, within⟩ := represents_rotateSetParents
    (hangs.within whole (by simp [kept, blackened, linked]) (by grind))
    (by rw [whole.nodes, live]) (by rw [whole.nodes, siblingLive]) oldWord oldNear oldFar
    newNear newFar (farBlackened.within toKept (by grind)) nearKept
    (isFocus.within whole (by grind)) (by
      refine (List.Perm.nodup_iff (List.perm_iff_count.mpr fun rb => ?_)).mp nodup
      simp only [List.count_append, List.count_cons, toList_blacken]
      omega)
  rw [attach_flip, attach_flip] at represents
  refine ⟨mem', ?_, represents, (whole.mono (by grind)).trans (within.mono (by grind))⟩
  have blackens : setParentColor ((mem.putChild side.flip parent (addr near)).putChild side sibling
      parent) (addr far) sibling .black = .ok blackened :=
    setParentColor_settle farLinked notNil sibling
  have keeps : keepColor blackened (addr near) parent = .ok kept :=
    keepColor_eq nearBlackened aligned parent
  simp only [rotateAway, Memory.load_of_live, Memory.store_of_live, live, siblingLive, ok_bind,
    Memory.putChild_nodes, isNear, blackens, keeps]
  exact turns

/-- Case 1 hangs the parent below a red sibling, and leaves it with a black one. -/
theorem represents_rotateSibling {left right : Tree U64} (isFocus : Spans mem parent focus)
    (hangs : Hangs mem root (⟨side, color, parent, node .red left sibling right⟩ :: rest)
      (addr focus))
    (notNil : child left right side ≠ nil)
    (nodup : (focus.toList ++
      held (⟨side, color, parent, node .red left sibling right⟩ :: rest)).Nodup) :
    ∃ mem', rotateSibling mem root side parent sibling =
        .ok (addr (child left right side), mem') ∧
      Represents mem' root (plug (⟨side, .red, parent, (child left right side).blacken⟩ ::
        ⟨side, color, sibling, child left right side.flip⟩ :: rest) focus) ∧
      Within mem mem' root (focus.toList ++
        held (⟨side, color, parent, node .red left sibling right⟩ :: rest)) := by
  obtain ⟨⟨cell, siblingSpans, climbs⟩, roots⟩ := hangs
  obtain ⟨scell, nearSpans, farSpans⟩ := (spans_node side).mp siblingSpans
  have halves : (focus.toList ++ parent :: ((child left right side).toList ++
      sibling :: ((child left right side.flip).toList ++ held rest))).Nodup := by
    refine (List.Perm.nodup_iff (List.perm_iff_count.mpr fun rb => ?_)).mp nodup
    have both := (perm_child left right side).count_eq rb
    simp only [held, toList_node, List.count_append, List.count_cons] at both ⊢
    omega
  have inHalf : ∀ rb ∈ (child left right side).toList, rb ∈ left.toList ∨ rb ∈ right.toList := by
    intro rb member
    exact List.mem_append.mp
      ((perm_child left right side).mem_iff.mp (List.mem_append_left _ member))
  generalize child left right side = near at *
  generalize child left right side.flip = far at *
  have distinct := halves
  simp only [List.nodup_append, List.nodup_cons, List.mem_append, List.mem_cons] at distinct
  have different : sibling ≠ parent := by grind
  let linked := (mem.putChild side.flip parent (addr near)).putChild side sibling parent
  have toLinked : Within mem linked root [sibling, parent] :=
    (within_putChild root _ parent _ (by simp)).trans (within_putChild root _ sibling _ (by simp))
  have nearLinked : Spans linked sibling near := nearSpans.within toLinked (by grind)
  let blackened := linked.settle near.blacken parent
  have toBlackened : Within linked blackened root near.blacken.toList :=
    within_settle root near.blacken parent
  have nearBlackened : Spans blackened parent near.blacken :=
    nearLinked.settle (blacken_blacken near) (by grind)
  have whole : Within mem blackened root (sibling :: parent :: near.toList) :=
    (toLinked.mono (by simp)).trans (toBlackened.mono (by grind))
  have oldWord : blackened.parentColor parent = pack (above 0 rest) color :=
    (toBlackened.same parent (by grind)).word.trans cell.word
  have oldNear : blackened.child side.flip parent = addr near.blacken := by
    simp [blackened, linked]
  have oldFar : blackened.child side.flip.flip parent = addr focus := by
    simp only [Side.flip_flip, Memory.settle_child, Memory.putChild_child, different.symm,
      and_false, ↓reduceIte, Side.ne_flip, and_true, blackened, linked]
    exact cell.near
  have newNear : blackened.child side.flip sibling = addr far := by
    simp only [Memory.settle_child, Memory.putChild_child, different, and_false,
      ↓reduceIte, Side.flip_ne, and_true, blackened, linked]
    exact scell.far
  have newFar : blackened.child side.flip.flip sibling = parent := by simp [blackened, linked]
  obtain ⟨mem', turns, represents, within⟩ := represents_rotateSetParents
    (Hangs.within ⟨climbs, roots⟩ whole (by simp [blackened, linked]) (by grind))
    (by rw [whole.nodes]; exact cell.live) (by rw [whole.nodes]; exact scell.live) oldWord oldNear
    oldFar newNear newFar (farSpans.within whole (by grind)) nearBlackened
    (isFocus.within whole (by grind)) (by
      refine (List.Perm.nodup_iff (List.perm_iff_count.mpr fun rb => ?_)).mp halves
      simp only [List.count_append, List.count_cons, toList_blacken]
      omega)
  rw [attach_flip, attach_flip] at represents
  have blackens : setParentColor ((mem.putChild side.flip parent (addr near)).putChild side sibling
      parent) (addr near) parent .black = .ok blackened :=
    setParentColor_settle nearLinked notNil parent
  refine ⟨mem', ?_, represents, (whole.mono ?_).trans (within.mono ?_)⟩
  · have live : mem.nodes.live parent = true := cell.live
    have siblingLive : mem.nodes.live sibling = true := scell.live
    have isNear : mem.child side sibling = addr near := scell.near
    simp only [rotateSibling, Memory.load_of_live, Memory.store_of_live, live, siblingLive, ok_bind,
      Memory.putChild_nodes, isNear, blackens]
    rw [turns]
    rfl
  · simp only [held, toList_node]
    grind
  · simp only [held, toList_node]
    grind

/-- Case 3 hangs the sibling below its red child. -/
theorem rotateNephew_eq {left right : Tree U64} {nephew : U64} (root : U64)
    (live : mem.nodes.live parent = true)
    (siblingSpans : Spans mem parent (attach ⟨side, .black, sibling, far⟩
      (node .red left nephew right)))
    (nodup : (parent :: (left.toList ++ nephew :: right.toList ++ sibling :: far.toList)).Nodup) :
    ∃ mem', rotateNephew mem side parent sibling nephew = .ok mem' ∧
      mem'.root = mem.root ∧ mem'.parentColor parent = mem.parentColor parent ∧
      mem'.child side parent = mem.child side parent ∧
      mem'.child side nephew = addr (child left right side) ∧
      mem'.child side.flip nephew = sibling ∧ Spans mem' nephew (child left right side) ∧
      Spans mem' parent (attach ⟨side, .black, sibling, far⟩
        (child left right side.flip).blacken) ∧
      Within mem mem' root (parent :: sibling :: nephew ::
        (child left right side.flip).toList) := by
  obtain ⟨scell, nephewSpans, farSpans⟩ := (spans_attach _ _).mp siblingSpans
  obtain ⟨ncell, nearSpans, outerSpans⟩ := (spans_node side).mp nephewSpans
  have halves : (parent :: ((child left right side).toList ++
      nephew :: ((child left right side.flip).toList ++ sibling :: far.toList))).Nodup := by
    refine (List.Perm.nodup_iff (List.perm_iff_count.mpr fun rb => ?_)).mp nodup
    have both := (perm_child left right side).count_eq rb
    simp only [List.count_append, List.count_cons] at both ⊢
    omega
  generalize child left right side = near at *
  generalize child left right side.flip = outer at *
  simp only [List.nodup_append, List.nodup_cons, List.mem_append, List.mem_cons] at halves
  have different : nephew ≠ sibling := by grind
  have notNephew : parent ≠ nephew := by grind
  have notSibling : parent ≠ sibling := by grind
  let linked := ((mem.putChild side sibling (addr outer)).putChild side.flip nephew
    sibling).putChild side.flip parent nephew
  have toLinked : Within mem linked root [parent, sibling, nephew] :=
    ((within_putChild root _ sibling _ (by simp)).trans
      (within_putChild root _ nephew _ (by simp))).trans (within_putChild root _ parent _ (by simp))
  have outerLinked : Spans linked nephew outer := outerSpans.within toLinked (by grind)
  have toTurned : Within linked (linked.settle outer.blacken sibling) root outer.blacken.toList :=
    within_settle root outer.blacken sibling
  have whole : Within mem (linked.settle outer.blacken sibling) root
      (parent :: sibling :: nephew :: outer.toList) :=
    (toLinked.mono (by simp)).trans (toTurned.mono (by grind))
  have isOuter : mem.child side.flip nephew = addr outer := ncell.far
  have nephewLive : mem.nodes.live nephew = true := ncell.live
  have siblingLive : mem.nodes.live sibling = true := scell.live
  refine ⟨linked.settle outer.blacken sibling, ?_, ?_, ?_, ?_, ?_, ?_, ?_, ?_, whole⟩
  · simp only [rotateNephew, Memory.load_of_live, Memory.store_of_live, live, nephewLive,
      siblingLive, ok_bind, Memory.putChild_nodes, isOuter]
    exact adopt_eq outerLinked sibling
  · simp [linked]
  · exact (toTurned.same parent (by grind)).word
  · simp [linked, notNephew, notSibling]
  · simp only [Memory.settle_child, Memory.putChild_child, linked, different, and_false, ↓reduceIte,
      Side.ne_flip, false_and, notNephew.symm]
    exact ncell.near
  · simp [linked, notNephew.symm]
  · exact nearSpans.within whole (by grind)
  · rw [spans_attach, addr_blacken]
    refine ⟨⟨?_, ?_, ?_, ?_⟩, outerLinked.settle (blacken_blacken outer) (by grind),
      farSpans.within whole (by grind)⟩
    · rw [whole.nodes, siblingLive]
    · exact (toTurned.same sibling (by grind)).word.trans scell.word
    · simp [linked]
    · simp only [Memory.settle_child, Memory.putChild_child, linked, different.symm, and_false,
        ↓reduceIte, Side.flip_ne, false_and, notSibling.symm]
      exact scell.far

/-- Case 3 and then Case 4. -/
theorem represents_rotateNephew {left right : Tree U64} {nephew : U64}
    (isFocus : Spans mem parent focus) (hangs : Hangs mem root rest parent)
    (live : mem.nodes.live parent = true)
    (word : mem.parentColor parent = pack (above 0 rest) color)
    (below : mem.child side parent = addr focus)
    (siblingSpans : Spans mem parent (attach ⟨side, .black, sibling, far⟩
      (node .red left nephew right)))
    (nodup : (focus.toList ++ parent :: ((node .red left nephew right).toList ++
      sibling :: (far.toList ++ held rest))).Nodup) :
    ∃ mem₁ mem', rotateNephew mem side parent sibling nephew = .ok mem₁ ∧
      rotateAway mem₁ root side parent nephew sibling = .ok mem' ∧
      Represents mem' root (plug rest (attach ⟨side, color, nephew,
          attach ⟨side, .black, sibling, far⟩ (child left right side.flip).blacken⟩
        (attach ⟨side, .black, parent, child left right side⟩ focus))) ∧
      Within mem mem' root (parent :: ((node .red left nephew right).toList ++
        sibling :: (far.toList ++ held rest))) := by
  have distinct := nodup
  simp only [toList_node, List.nodup_append, List.nodup_cons, List.mem_append, List.mem_cons]
    at distinct
  obtain ⟨mem₁, rotates₁, roots₁, word₁, below₁, near₁, far₁, nearSpans₁, farSpans₁, within₁⟩ :=
    rotateNephew_eq root live siblingSpans (by
      simp only [List.mem_append, List.mem_cons, List.nodup_append, List.nodup_cons]
      grind)
  have nephewLive : mem.nodes.live nephew = true :=
    siblingSpans.live (mem_attach.mpr (Or.inl (by simp)))
  have nodup₁ : (focus.toList ++ parent :: ((child left right side).toList ++
      nephew :: ((attach ⟨side, .black, sibling, far⟩
        (child left right side.flip).blacken).toList ++ held rest))).Nodup := by
    refine (List.Perm.nodup_iff (List.perm_iff_count.mpr fun rb => ?_)).mp nodup
    have both := (perm_child left right side).count_eq rb
    have attached := (perm_attach ⟨side, .black, sibling, far⟩
      (child left right side.flip).blacken).count_eq rb
    simp only [toList_node, List.count_append, List.count_cons, toList_blacken] at both attached ⊢
    omega
  have inHalves : ∀ rb, rb ∈ (child left right side).toList ∨
      rb ∈ (child left right side.flip).toList → rb ∈ left.toList ∨ rb ∈ right.toList := by
    intro rb member
    exact List.mem_append.mp ((perm_child left right side).mem_iff.mp (List.mem_append.mpr member))
  have isFar : mem₁.child side.flip nephew = addr (attach ⟨side, .black, sibling, far⟩
      (child left right side.flip).blacken) := by rw [far₁, addr_attach]
  have notNil : attach ⟨side, .black, sibling, far⟩ (child left right side.flip).blacken ≠ nil := by
    cases side <;> exact node_ne_nil
  obtain ⟨mem', rotates, represents, within⟩ := represents_rotateAway
    (hangs.within within₁ roots₁ (by grind)) (by rw [within₁.nodes, live])
    (by rw [within₁.nodes, nephewLive]) (word₁.trans word) (below₁.trans below) near₁ isFar notNil
    (mem.nodes.aligned nephew nephewLive) (isFocus.within within₁ (by grind)) nearSpans₁ farSpans₁
    nodup₁
  have black : (attach ⟨side, .black, sibling, far⟩ (child left right side.flip).blacken).blacken =
      attach ⟨side, .black, sibling, far⟩ (child left right side.flip).blacken := by
    cases side <;> rfl
  rw [black] at represents
  rw [addr_attach] at rotates
  refine ⟨mem₁, mem', rotates₁, rotates, represents, (within₁.mono ?_).trans (within.mono ?_)⟩
  · simp only [toList_node]
    grind
  · simp only [toList_node, List.mem_cons, List.mem_append, mem_attach, toList_blacken]
    grind

theorem isBlackOrNull_eq (spans : Spans mem up tree) (aligned : up &&& 3 = 0) :
    isBlackOrNull mem (addr tree) = .ok (!tree.isRed) := by
  cases tree with
  | nil => rfl
  | node color left value right =>
      rw [isBlackOrNull, addr, if_neg spans.1.ne_null, isBlack_eq spans.1.live spans.1.word aligned]
      cases color <;> rfl

section Equations

variable {left right : Tree U64} {nephew : U64}

theorem eraseRotate_far (isRed : far.isRed = true) :
    eraseRotate side color focus parent near sibling far =
      some (attach ⟨side, color, sibling, far.blacken⟩
        (attach ⟨side, .black, parent, near⟩ focus)) := by
  obtain ⟨left, value, right, rfl⟩ := exists_of_isRed isRed
  rfl

theorem eraseRotate_near (notRed : far.isRed = false) :
    eraseRotate side color focus parent (node .red left nephew right) sibling far =
      some (attach ⟨side, color, nephew,
          attach ⟨side, .black, sibling, far⟩ (child left right side.flip).blacken⟩
        (attach ⟨side, .black, parent, child left right side⟩ focus)) := by
  rcases far with _ | ⟨_ | _, _, _, _⟩
  · rfl
  · cases notRed
  · rfl

theorem eraseRotate_none (farNotRed : far.isRed = false) (nearNotRed : near.isRed = false) :
    eraseRotate side color focus parent near sibling far = none := by
  rcases far with _ | ⟨_ | _, _, _, _⟩
  · rcases near with _ | ⟨_ | _, _, _, _⟩
    · rfl
    · cases nearNotRed
    · rfl
  · cases farNotRed
  · rcases near with _ | ⟨_ | _, _, _, _⟩
    · rfl
    · cases nearNotRed
    · rfl

end Equations

theorem setBlack_eq {rb : U64} (live : mem.nodes.live rb = true)
    (word : mem.parentColor rb = pack up .red) :
    setBlack mem rb = .ok (mem.putWord rb (pack up .black)) := by
  rw [setBlack, Memory.word_of_live live, ok_bind, Memory.setWord_of_live _ live, word, pack_red]
  rfl

/-- Case 2 makes the sibling red and the parent black. -/
theorem flipSibling_eq {left right : Tree U64} (isFocus : Spans mem parent focus)
    (hangs : Hangs mem root (⟨side, color, parent, node .black left sibling right⟩ :: rest)
      (addr focus))
    (nodup : (focus.toList ++
      held (⟨side, color, parent, node .black left sibling right⟩ :: rest)).Nodup) :
    ∃ mem', flipSibling mem parent sibling =
        .ok (if color = .red then 0 else above 0 rest, mem') ∧
      Represents mem' root
        (plug rest (attach ⟨side, .black, parent, node .red left sibling right⟩ focus)) ∧
      Within mem mem' root [sibling, parent] := by
  obtain ⟨⟨cell, siblingSpans, climbs⟩, roots⟩ := hangs
  simp only [held, toList_node, List.nodup_append, List.nodup_cons, List.mem_append,
    List.mem_cons] at nodup
  have different : parent ≠ sibling := by grind
  have live : mem.nodes.live parent = true := cell.live
  have siblingLive : mem.nodes.live sibling = true := siblingSpans.1.live
  let reddened := mem.putWord sibling (pack parent .red)
  have toReddened : Within mem reddened root [sibling] := within_putWord root _ _ (by simp)
  have word : reddened.parentColor parent = pack (above 0 rest) color :=
    (toReddened.same parent (by simpa using different)).word.trans cell.word
  -- the memory after Case 2, whether or not the parent's word is written
  have shape : ∀ mem', Within mem mem' root [sibling, parent] → mem'.child = mem.child →
      mem'.root = mem.root → mem'.parentColor sibling = pack parent .red →
      mem'.parentColor parent = pack (above 0 rest) .black →
      Represents mem' root
        (plug rest (attach ⟨side, .black, parent, node .red left sibling right⟩ focus)) := by
    intro mem' within childs sameRoots isSibling isParent
    rw [represents_plug, spans_attach, addr_attach]
    refine ⟨⟨⟨?_, isParent, ?_, ?_⟩, isFocus.within within (by grind), ?_⟩,
      Hangs.within ⟨climbs, roots⟩ within sameRoots (by grind)⟩
    · rw [within.nodes, live]
    · rw [childs]
      exact cell.near
    · rw [childs]
      exact cell.far
    · refine siblingSpans.rehang within.nodes isSibling (fun _ => by rw [childs]) ?_
      exact fun rb member => within.same rb (by grind)
  have reads : isRed (mem.putWord sibling (pack parent .red)) parent =
      .ok (decide (color = .red)) := isRed_eq live word climbs.aligned
  rw [flipSibling, setParentColor_eq siblingLive, ok_bind, reads, ok_bind]
  cases color with
  | red =>
      let blackened := reddened.putWord parent (pack (above 0 rest) .black)
      have toBlackened : Within mem blackened root [sibling, parent] :=
        (toReddened.mono (by simp)).trans (within_putWord root _ _ (by simp))
      have blackens : setBlack (mem.putWord sibling (pack parent .red)) parent = .ok blackened :=
        setBlack_eq live word
      refine ⟨blackened, ?_, shape blackened toBlackened rfl rfl ?_ ?_, toBlackened⟩
      · simp only [decide_true, ↓reduceIte, blackens, ok_bind, pure_eq_ok]
      · simp [blackened, reddened, different.symm]
      · simp [blackened]
  | black =>
      have climbsOn : Rb.parent (mem.putWord sibling (pack parent .red)) parent =
          .ok (above 0 rest) := parent_eq live word climbs.aligned
      refine ⟨reddened, ?_, shape reddened (toReddened.mono (by simp)) rfl rfl ?_ word,
        toReddened.mono (by simp)⟩
      · simp only [reduceCtorEq, decide_false, Bool.false_eq_true, ↓reduceIte, climbsOn, ok_bind,
          pure_eq_ok, reddened]
      · simp [reddened]

/-- Cases 2 to 4 do what `Tree.eraseRotate` does, or make the sibling red. -/
theorem eraseStep_eq {left right : Tree U64} (isFocus : Spans mem parent focus)
    (hangs : Hangs mem root (⟨side, color, parent, node .black left sibling right⟩ :: rest)
      (addr focus))
    (nodup : (focus.toList ++
      held (⟨side, color, parent, node .black left sibling right⟩ :: rest)).Nodup) :
    let rotated := eraseRotate side color focus parent (child left right side) sibling
      (child left right side.flip)
    ∃ mem', eraseStep mem root side parent sibling =
        .ok (if rotated.isSome ∨ color = .red then 0 else above 0 rest, mem') ∧
      Represents mem' root (plug rest (rotated.getD
        (attach ⟨side, .black, parent, node .red left sibling right⟩ focus))) ∧
      Within mem mem' root (focus.toList ++
        held (⟨side, color, parent, node .black left sibling right⟩ :: rest)) := by
  have flips := flipSibling_eq isFocus hangs nodup
  obtain ⟨⟨cell, siblingSpans, climbs⟩, roots⟩ := hangs
  obtain ⟨scell, nearSpans, farSpans⟩ := (spans_node side).mp siblingSpans
  have live : mem.nodes.live parent = true := cell.live
  have aligned : sibling &&& 3 = 0 := scell.aligned
  have halves : (focus.toList ++ parent :: ((child left right side).toList ++
      sibling :: ((child left right side.flip).toList ++ held rest))).Nodup := by
    refine (List.Perm.nodup_iff (List.perm_iff_count.mpr fun rb => ?_)).mp nodup
    have both := (perm_child left right side).count_eq rb
    simp only [held, toList_node, List.count_append, List.count_cons] at both ⊢
    omega
  have inHalves : ∀ rb, rb ∈ (child left right side).toList ∨
      rb ∈ (child left right side.flip).toList → rb ∈ left.toList ∨ rb ∈ right.toList := by
    intro rb member
    exact List.mem_append.mp ((perm_child left right side).mem_iff.mp (List.mem_append.mpr member))
  have siblingSpans' : Spans mem parent (attach ⟨side, .black, sibling, child left right side.flip⟩
      (child left right side)) := (spans_attach _ _).mpr ⟨scell, nearSpans, farSpans⟩
  generalize child left right side = near at *
  generalize child left right side.flip = far at *
  have distinct := halves
  simp only [List.nodup_append, List.nodup_cons, List.mem_append, List.mem_cons] at distinct
  have isFar : mem.child side.flip sibling = addr far := scell.far
  have isNear : mem.child side sibling = addr near := scell.near
  intro rotated
  rw [eraseStep, Memory.load_of_live _ scell.live, ok_bind, isFar,
    isBlackOrNull_eq farSpans aligned, ok_bind]
  cases farRed : far.isRed with
  | true =>
      have notNil : far ≠ nil := by
        intro isNil
        rw [isNil] at farRed
        cases farRed
      obtain ⟨mem', rotates, represents, within⟩ := represents_rotateAway ⟨climbs, roots⟩ live
        scell.live cell.word cell.near isNear isFar notNil aligned isFocus nearSpans farSpans halves
      have isRotated : rotated = _ := eraseRotate_far farRed
      rw [isRotated]
      refine ⟨mem', ?_, represents, within.mono ?_⟩
      · simp [rotates]
      · simp only [held, toList_node]
        grind
  | false =>
      rw [Bool.not_false, if_pos rfl, Memory.load_of_live _ scell.live, ok_bind, isNear,
        isBlackOrNull_eq nearSpans aligned, ok_bind]
      cases nearRed : near.isRed with
      | true =>
          obtain ⟨nearLeft, nephew, nearRight, rfl⟩ := exists_of_isRed nearRed
          obtain ⟨mem₁, mem', rotates₁, rotates, represents, within⟩ :=
            represents_rotateNephew isFocus
            ⟨climbs, roots⟩ live cell.word cell.near siblingSpans' halves
          have isRotated : rotated = _ := eraseRotate_near farRed
          rw [isRotated]
          refine ⟨mem', ?_, represents, within.mono ?_⟩
          · simp [rotates₁, rotates, addr]
          · simp only [held, toList_node, List.mem_append, List.mem_cons] at inHalves ⊢
            grind
      | false =>
          obtain ⟨mem', flips, represents, within⟩ := flips
          have isRotated : rotated = _ := eraseRotate_none farRed nearRed
          rw [isRotated]
          refine ⟨mem', ?_, represents, within.mono ?_⟩
          · simp [flips]
          · simp [held]

section Equations

variable {left right nearLeft nearRight : Tree U64} {nephew : U64} {nearColor : Color}

theorem eraseColor_red (isNear : child left right side = node nearColor nearLeft nephew nearRight) :
    eraseColor focus (⟨side, color, parent, node .red left sibling right⟩ :: rest) =
      plug (⟨side, color, sibling, child left right side.flip⟩ :: rest)
        ((eraseRotate side .red focus parent (child nearLeft nearRight side) nephew
            (child nearLeft nearRight side.flip)).getD
          (attach ⟨side, .black, parent, node .red nearLeft nephew nearRight⟩ focus)) := by
  simp only [eraseColor, isNear]

theorem eraseColor_black {rotated : Option (Tree U64)}
    (rotates : rotated = eraseRotate side color focus parent (child left right side) sibling
      (child left right side.flip)) :
    eraseColor focus (⟨side, color, parent, node .black left sibling right⟩ :: rest) =
      if rotated.isSome ∨ color = .red then
        plug rest (rotated.getD (attach ⟨side, .black, parent, node .red left sibling right⟩ focus))
      else
        eraseColor (attach ⟨side, .black, parent, node .red left sibling right⟩ focus) rest := by
  simp only [eraseColor, ← rotates]
  cases rotated with
  | some rotated => rfl
  | none => cases color <;> rfl

end Equations

/-- A node is told from its sibling by its address, also if there is no node. -/
theorem addr_ne_addr {sibling : Tree U64} (spans : Spans mem up sibling) (notNil : sibling ≠ nil)
    (apart : ∀ rb ∈ focus.toList, rb ∉ sibling.toList) : addr focus ≠ addr sibling := by
  intro same
  have notNull : addr sibling ≠ 0 := fun isNull => notNil (spans.addr_eq_zero.mp isNull)
  have inFocus : addr focus ∈ focus.toList := by
    apply addr_mem
    intro isNil
    rw [isNil, addr] at same
    exact notNull same.symm
  apply apart _ inFocus
  rw [same]
  exact addr_mem notNil

/-- A parent with a red sibling for the node that lacks a black one lacks one itself. -/
theorem redBlack_attach_step {left right : Tree U64} {height : Nat} {other : Color}
    (lacks : focus.RedBlack .black height)
    (beside : (node .black left sibling right).RedBlack other (height + 1))
    (stays : eraseRotate side color focus parent (child left right side) sibling
      (child left right side.flip) = none) :
    (attach ⟨side, .black, parent, node .red left sibling right⟩ focus).RedBlack .black
      (height + 1) := by
  cases beside with
  | black below beside =>
      obtain ⟨_, near⟩ := exists_redBlack_child below beside side
      obtain ⟨_, far⟩ := exists_redBlack_child below beside side.flip
      exact redBlack_attach_black rfl lacks (redBlack_of_eraseRotate near far stays)

/-- The loop of `____rb_erase_color` does to the memory what `Tree.eraseColor` does to the
tree. -/
theorem represents_eraseLoop {height fuel : Nat} {path : List (Frame U64)}
    (lacks : focus.RedBlack .black height) (fits : Fits path .black (height + 1))
    (notRoot : path ≠ []) (enough : path.length ≤ fuel)
    (represents : Represents mem root (plug path focus))
    (nodup : (focus.toList ++ held path).Nodup) :
    ∃ mem', eraseLoop root fuel (addr focus) (above 0 path) mem = .ok mem' ∧
      Represents mem' root (eraseColor focus path) ∧
      Within mem mem' root (focus.toList ++ held path) := by
  induction fuel generalizing mem focus path height with
  | zero => exact absurd (List.length_eq_zero_iff.mp (Nat.le_zero.mp enough)) notRoot
  | succ fuel ih =>
      cases path with
      | nil => exact absurd rfl notRoot
      | cons frame rest =>
          obtain ⟨other, beside, onlyBlack, fitsAbove⟩ := fits.parent
          obtain ⟨side, color, parent, sibling⟩ := frame
          have notNil : sibling ≠ nil := by
            intro isNil
            rw [isNil] at beside
            cases beside
          obtain ⟨spans, hangs⟩ := (represents_plug _ _).mp represents
          have isFocus : Spans mem parent focus := spans
          obtain ⟨⟨cell, siblingSpans, climbs⟩, roots⟩ := id hangs
          have live : mem.nodes.live parent = true := cell.live
          have distinct := nodup
          simp only [held, List.nodup_append, List.nodup_cons, List.mem_append, List.mem_cons]
            at distinct
          have different : addr focus ≠ addr sibling := addr_ne_addr siblingSpans notNil (by grind)
          rcases sibling with _ | ⟨siblingColor, left, sibling, right⟩
          · exact absurd rfl notNil
          · have isRedSibling : isRed mem sibling = .ok (decide (siblingColor = .red)) :=
              isRed_eq siblingSpans.1.live siblingSpans.1.word cell.aligned
            have isSibling : mem.child side.flip parent = sibling := cell.far
            have isSide :
              (if addr focus ≠ mem.child .right parent then Side.left else .right) = side :=
              cell.side_eq different
            rw [eraseLoop, above, Memory.load_of_live _ live, ok_bind]
            simp only [isSide, Memory.load_of_live _ live, ok_bind, isSibling, isRedSibling]
            cases siblingColor with
            | red =>
                cases beside with
                | red below beside =>
                    have nearBlack := redBlack_child below beside side
                    cases isNear : child left right side with
                    | nil =>
                        rw [isNear] at nearBlack
                        cases nearBlack
                    | node nearColor nearLeft nephew nearRight =>
                        obtain ⟨mem₁, rotates, represents₁, within₁⟩ := represents_rotateSibling
                          isFocus hangs (by rw [isNear]; exact node_ne_nil) nodup
                        rw [isNear] at rotates represents₁
                        obtain ⟨spans₁, hangs₁⟩ := (represents_plug _ _).mp represents₁
                        have isFocus₁ : Spans mem₁ parent focus := spans₁
                        have perm : (focus.toList ++ held (⟨side, .red, parent,
                              (node nearColor nearLeft nephew nearRight).blacken⟩ ::
                            ⟨side, color, sibling, child left right side.flip⟩ :: rest)).Perm
                            (focus.toList ++
                              held (⟨side, color, parent, node .red left sibling right⟩ ::
                                rest)) := by
                          refine List.perm_iff_count.mpr fun rb => ?_
                          have both := (perm_child left right side).count_eq rb
                          simp only [isNear, held, toList_node, toList_blacken, List.count_append,
                            List.count_cons] at both ⊢
                          omega
                        obtain ⟨mem', steps, represents', within⟩ :=
                          eraseStep_eq isFocus₁ hangs₁ (perm.nodup_iff.mpr nodup)
                        rw [eraseColor_red isNear]
                        refine ⟨mem', ?_, represents', within₁.trans (within.mono ?_)⟩
                        · simp [rotates, addr, steps]
                        · exact fun rb member => perm.mem_iff.mp member
            | black =>
                obtain ⟨mem₁, steps, represents₁, within₁⟩ := eraseStep_eq isFocus hangs nodup
                rw [eraseColor_black rfl]
                simp only [reduceCtorEq, decide_false, Bool.false_eq_true, ↓reduceIte, pure_eq_ok,
                  ok_bind, steps]
                split
                · exact ⟨mem₁, by simp, represents₁, within₁⟩
                · rename_i stays
                  simp only [not_or, Option.not_isSome_iff_eq_none] at stays
                  rw [stays.1, Option.getD_none] at represents₁
                  have isBlack : color = .black := by
                    cases color with
                    | red => exact absurd rfl stays.2
                    | black => rfl
                  cases rest with
                  | nil => exact ⟨mem₁, by simp [above], represents₁, within₁⟩
                  | cons frame rest =>
                      obtain ⟨-, hangs₁⟩ := (represents_plug _ _).mp represents₁
                      have notNull : frame.value ≠ 0 := hangs₁.1.1.ne_null
                      rw [isBlack] at fitsAbove
                      have lacks' := redBlack_attach_step lacks beside stays.1
                      have perm : ((attach ⟨side, .black, parent, node .red left sibling right⟩
                            focus).toList ++ held (frame :: rest)).Perm
                          (focus.toList ++ held
                            (⟨side, color, parent, node .black left sibling right⟩ ::
                              frame :: rest)) := by
                        refine List.perm_iff_count.mpr fun rb => ?_
                        have attached := (perm_attach ⟨side, .black, parent,
                          node .red left sibling right⟩ focus).count_eq rb
                        simp only [held, List.count_append, List.count_cons, toList_node]
                          at attached ⊢
                        omega
                      obtain ⟨mem', loops, represents', within⟩ := ih lacks' fitsAbove
                        (List.cons_ne_nil _ _)
                        (Nat.le_of_succ_le_succ enough) represents₁ (perm.nodup_iff.mpr nodup)
                      rw [addr_attach] at loops
                      refine ⟨mem', ?_, represents', within₁.trans (within.mono ?_)⟩
                      · rw [if_pos (show above 0 (frame :: rest) ≠ 0 from notNull)]
                        exact loops
                      · exact fun rb member => perm.mem_iff.mp member

end DwBpf.Rb
